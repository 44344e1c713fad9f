import MatrixCalculator.Proofs.Chain.PrecedenceTree

/-!
# Values of chains

The value of a precedence tree without the tree: a chain is cut at its root, and its
value is the one of the operator there for the values of both parts.  The root is the
last sum, without sums the last product, and without products the first power.
-/

namespace MatrixCalculator.Chain

open Outcome

variable {α β : Type} {apply : Operator → α → α → α} {op : Operator}

/-- The value of a tree whose applications all have one. -/
def Tree.fold (apply : Operator → α → α → α) : Tree α → α
  | operand x => x
  | application _ op left right => apply op (left.fold apply) (right.fold apply)

/-- The value of the precedence tree of a chain whose operands have values. -/
def linkValue (apply : Operator → α → α → α) (value : β → α) (first : β) (links : Links β) : α :=
  (tree 0 (value first) (links.map fun link => (link.1, value link.2))).fold apply

/-- The value of a tree whose operands are mapped, wherever the operators stand. -/
theorem eval_tree_map {f : α → β} {run : Operator → β → β → Except Fault β}
    (hrun : ∀ op x y, run op (f x) (f y) = .ok (f (apply op x y))) (home home' : Nat)
    (first : α) (links : Links α) :
    (tree home' (f first) (links.map fun link => (link.1, f link.2))).eval run =
      .ok (f ((tree home first links).fold apply)) := by
  induction hlength : links.length using Nat.strong_induction_on
    generalizing home home' first links with
  | h length ih =>
    have hoperators : (links.map fun link => (link.1, f link.2)).map Prod.fst =
        links.map Prod.fst := by simp
    generalize hplace : rootPlace (links.map Prod.fst) = place
    cases hlink : links[place]? with
    | none =>
      have hmapped : (links.map fun link => (link.1, f link.2))[place]? = none := by
        rw [List.getElem?_map, hlink]
        rfl
      rw [tree_of_none (by rw [hoperators, hplace, hmapped]), tree_of_none (by rw [hplace, hlink])]
      rfl
    | some link =>
      obtain ⟨op, next⟩ := link
      have hlt := (List.getElem?_eq_some_iff.1 hlink).1
      have hmapped : (links.map fun link => (link.1, f link.2))[place]? = some (op, f next) := by
        rw [List.getElem?_map, hlink]
        rfl
      have hleft := ih (links.take place).length (by rw [List.length_take]; omega) home home' first
        _ rfl
      have hright := ih (links.drop (place + 1)).length (by rw [List.length_drop]; omega)
        (home + place + 1) (home' + place + 1) next _ rfl
      rw [List.map_take] at hleft
      rw [List.map_drop] at hright
      rw [tree_eq hmapped (by rw [hoperators, hplace]), tree_eq hlink hplace, Tree.eval, hleft,
        ok_bind, hright, ok_bind, hrun, Tree.fold]

/-- What holds of the first operand of a tree holds of its value, if no operator loses it. -/
theorem eval_tree_of_forall {run : Operator → β → β → Except Fault β} {P R : β → Prop}
    (hothers : ∀ op x y value, P x → P y → run op x y = .ok value → P value)
    (hfirst : ∀ op x y value, R x → P y → run op x y = .ok value → R value)
    {home : Nat} {first value : β} {links : Links β} (hlinks : ∀ link ∈ links, P link.2)
    (hR : R first) (hvalue : (tree home first links).eval run = .ok value) : R value := by
  induction hlength : links.length using Nat.strong_induction_on
    generalizing home first links value R with
  | h length ih =>
    generalize hplace : rootPlace (links.map Prod.fst) = place
    cases hlink : links[place]? with
    | none =>
      rw [tree_of_none (by rw [hplace, hlink])] at hvalue
      cases hvalue
      exact hR
    | some link =>
      obtain ⟨op, next⟩ := link
      have hlt := (List.getElem?_eq_some_iff.1 hlink).1
      rw [tree_eq hlink hplace, Tree.eval] at hvalue
      obtain ⟨x, hx, hvalue⟩ := bind_eq_ok_iff.1 hvalue
      obtain ⟨y, hy, hvalue⟩ := bind_eq_ok_iff.1 hvalue
      have hleft : R x := ih (links.take place).length (by rw [List.length_take]; omega) hfirst
        (fun link hmem => hlinks link (List.mem_of_mem_take hmem)) hR hx rfl
      have hright : P y := ih (links.drop (place + 1)).length (by rw [List.length_drop]; omega)
        hothers (fun link hmem => hlinks link (List.mem_of_mem_drop hmem))
        (hlinks _ (List.mem_of_getElem? hlink)) hy rfl
      exact hfirst op x y value hleft hright hvalue

/-- The place of the first operator does not matter for the value. -/
theorem fold_tree (home : Nat) (first : α) (links : Links α) :
    (tree home first links).fold apply = (tree 0 first links).fold apply := by
  have hvalue : ∀ home, (tree 0 (id first) (links.map fun link => (link.1, id link.2))).eval
      (fun op x y => .ok (apply op x y)) = .ok ((tree home first links).fold apply) :=
    fun home => eval_tree_map (fun _ _ _ => rfl) home 0 first links
  exact Except.ok.inj ((hvalue home).symm.trans (hvalue 0))

/-! ## Cutting at the root -/

variable {value : β → α} {first next : β} {left right links : Links β}

theorem linkValue_nil : linkValue apply value first [] = value first := by
  rw [linkValue, List.map_nil, tree_nil, Tree.fold]

theorem linkValue_root
    (hroot : rootPlace ((left ++ (op, next) :: right).map Prod.fst) = left.length) :
    linkValue apply value first (left ++ (op, next) :: right) =
      apply op (linkValue apply value first left) (linkValue apply value next right) := by
  have hplace : ((left ++ (op, next) :: right).map
      fun link => (link.1, value link.2))[left.length]? = some (op, value next) := by simp
  have hroot' : rootPlace (((left ++ (op, next) :: right).map
      fun link => (link.1, value link.2)).map Prod.fst) = left.length := by
    rw [List.map_map]
    exact hroot
  rw [linkValue, tree_eq hplace hroot', Tree.fold, fold_tree (0 + left.length + 1),
    ← List.map_take, ← List.map_drop, List.take_left, List.drop_length_add_append]
  rfl

/-- Among operators that are applied from the left the last one is the root. -/
theorem rootPlace_append (hop : op.precedence ≠ .power)
    (hleft : ∀ link ∈ left, pass link.1.precedence ≤ pass op.precedence)
    (hright : ∀ link ∈ right, pass link.1.precedence < pass op.precedence) :
    rootPlace ((left ++ (op, next) :: right).map Prod.fst) = left.length := by
  have hplace : ((left ++ (op, next) :: right).map Prod.fst)[left.length]? = some op := by simp
  refine rootPlace_eq hplace fun i other hi hne => ?_
  rw [List.getElem?_map] at hi
  obtain ⟨link, hlink, rfl⟩ := Option.map_eq_some_iff.1 hi
  rcases lt_or_gt_of_ne hne with hlt | hgt
  · rw [List.getElem?_append_left hlt] at hlink
    rcases (hleft link (List.mem_of_getElem? hlink)).lt_or_eq with hpass | hpass
    · exact .inl hpass
    · have hsame := pass_injective hpass
      exact .inr ⟨hsame, by rwa [if_neg (by rwa [hsame])]⟩
  · obtain ⟨k, rfl⟩ := Nat.exists_eq_add_of_lt hgt
    rw [List.getElem?_append_right (by omega),
      show left.length + k + 1 - left.length = k + 1 by omega, List.getElem?_cons_succ] at hlink
    exact .inl (hright link (List.mem_of_getElem? hlink))

/-! ## Sums of products of powers -/

/-- A chain as a sum of products of powers. -/
inductive Grouped : Precedence → α → Links α → Prop
  | operand (first : α) : Grouped .power first []
  | power (first : α) {next : α} {right : Links α} (hright : Grouped .power next right) :
      Grouped .power first ((.pow, next) :: right)
  | factor {first : α} {links : Links α} (hpower : Grouped .power first links) :
      Grouped .multiplicative first links
  | product {first next : α} {op : Operator} {left right : Links α}
      (hleft : Grouped .multiplicative first left) (hop : op.precedence = .multiplicative)
      (hright : Grouped .power next right) :
      Grouped .multiplicative first (left ++ (op, next) :: right)
  | term {first : α} {links : Links α} (hproduct : Grouped .multiplicative first links) :
      Grouped .additive first links
  | sum {first next : α} {op : Operator} {left right : Links α}
      (hleft : Grouped .additive first left) (hop : op.precedence = .additive)
      (hright : Grouped .multiplicative next right) :
      Grouped .additive first (left ++ (op, next) :: right)

namespace Grouped

variable {precedence : Precedence}

theorem consPower (first : β) (hgrouped : Grouped precedence next links) :
    Grouped precedence first ((.pow, next) :: links) := by
  induction hgrouped with
  | operand => exact .power first (.operand _)
  | power _ hright => exact .power first (.power _ hright)
  | factor _ ih => exact .factor ih
  | product _ hop hright ih => exact .product ih hop hright
  | term _ ih => exact .term ih
  | sum _ hop hright ih => exact .sum ih hop hright

theorem consProduct (first : β) (hgrouped : Grouped precedence next links)
    (hop : op.precedence = .multiplicative) (hprecedence : precedence ≠ .power) :
    Grouped precedence first ((op, next) :: links) := by
  induction hgrouped with
  | operand => exact absurd rfl hprecedence
  | power => exact absurd rfl hprecedence
  | factor hpower => exact .product (.factor (.operand first)) hop hpower
  | product _ hlast hright ih => exact .product (ih hprecedence) hlast hright
  | term _ ih => exact .term (ih (by decide))
  | sum _ hlast hright ih => exact .sum (ih hprecedence) hlast hright

theorem consSum (first : β) (hgrouped : Grouped precedence next links)
    (hop : op.precedence = .additive) (hprecedence : precedence = .additive) :
    Grouped .additive first ((op, next) :: links) := by
  induction hgrouped with
  | operand => cases hprecedence
  | power => cases hprecedence
  | factor => cases hprecedence
  | product => cases hprecedence
  | term hproduct => exact .sum (.term (.factor (.operand first))) hop hproduct
  | sum _ hlast hright ih => exact .sum (ih hprecedence) hlast hright

/-- The operators of a group bind at least as tightly as it does. -/
theorem pass_le (hgrouped : Grouped precedence first links) :
    ∀ link ∈ links, pass link.1.precedence ≤ pass precedence := by
  induction hgrouped with
  | operand => exact nofun
  | power _ _ ih => exact List.forall_mem_cons.2 ⟨le_rfl, ih⟩
  | factor _ ih => exact fun link hlink => (ih link hlink).trans (by decide)
  | term _ ih => exact fun link hlink => (ih link hlink).trans (by decide)
  | product _ hop _ ihLeft ihRight =>
    refine List.forall_mem_append.2 ⟨ihLeft, List.forall_mem_cons.2 ⟨(congrArg pass hop).le, ?_⟩⟩
    exact fun link hlink => (ihRight link hlink).trans (by decide)
  | sum _ hop _ ihLeft ihRight =>
    refine List.forall_mem_append.2 ⟨ihLeft, List.forall_mem_cons.2 ⟨(congrArg pass hop).le, ?_⟩⟩
    exact fun link hlink => (ihRight link hlink).trans (by decide)

end Grouped

/-- Every chain is a sum. -/
theorem grouped (first : β) (links : Links β) : Grouped .additive first links := by
  induction links generalizing first with
  | nil => exact .term (.factor (.operand first))
  | cons link links ih =>
    obtain ⟨op, next⟩ := link
    cases hop : op.precedence with
    | power =>
      obtain rfl : op = .pow := by cases op <;> first | rfl | cases hop
      exact (ih next).consPower first
    | multiplicative => exact (ih next).consProduct first hop (by decide)
    | additive => exact (ih next).consSum first hop rfl

/-- The last operand of a sum is the right one of its root. -/
theorem eval_tree_concat {run : Operator → α → α → Except Fault α} {first last : α}
    {links : Links α} (hop : op.precedence = .additive) :
    (tree 0 first (links ++ [(op, last)])).eval run = (do
      let x ← (tree 0 first links).eval run
      run op x last) := by
  have hroot : rootPlace ((links ++ [(op, last)]).map Prod.fst) = links.length := by
    refine rootPlace_append (by rw [hop]; decide) ?_ nofun
    rw [hop]
    exact (grouped first links).pass_le
  have hplace : (links ++ [(op, last)])[links.length]? = some (op, last) := by simp
  rw [tree_eq hplace hroot, List.take_left, List.drop_length_add_append, List.drop_one,
    List.tail_cons, tree_nil]
  rfl

/-! ## Values of groups -/

theorem linkValue_power (hright : Grouped .power next right) :
    linkValue apply value first ((.pow, next) :: right) =
      apply .pow (value first) (linkValue apply value next right) := by
  have hroot : rootPlace (([] ++ (Operator.pow, next) :: right).map Prod.fst) =
      ([] : Links β).length := by
    refine rootPlace_eq rfl fun i other hi hne => ?_
    obtain ⟨k, rfl⟩ := Nat.exists_eq_succ_of_ne_zero hne
    obtain ⟨link, hlink, rfl⟩ := List.mem_map.1 (List.mem_of_getElem? hi)
    have hpower : link.1.precedence = .power :=
      pass_injective (Nat.le_zero.1 ((hright.consPower first).pass_le link hlink))
    exact .inr ⟨hpower, by rw [if_pos hpower]; exact Nat.succ_pos k⟩
  have hvalue : linkValue apply value first ([] ++ (.pow, next) :: right) = _ :=
    linkValue_root hroot
  rwa [linkValue_nil] at hvalue

theorem linkValue_product (hleft : Grouped .multiplicative first left)
    (hop : op.precedence = .multiplicative) (hright : Grouped .power next right) :
    linkValue apply value first (left ++ (op, next) :: right) =
      apply op (linkValue apply value first left) (linkValue apply value next right) := by
  refine linkValue_root (rootPlace_append (by rw [hop]; decide) ?_ ?_) <;> rw [hop]
  · exact hleft.pass_le
  · exact fun link hlink => (hright.pass_le link hlink).trans_lt (by decide)

/-- One more factor behind a product. -/
theorem linkValue_concat (hleft : Grouped .multiplicative first left)
    (hop : op.precedence = .multiplicative) :
    linkValue apply value first (left ++ [(op, next)]) =
      apply op (linkValue apply value first left) (value next) := by
  rw [linkValue_product hleft hop (.operand next), linkValue_nil]

theorem linkValue_sum (hop : op.precedence = .additive)
    (hright : Grouped .multiplicative next right) :
    linkValue apply value first (left ++ (op, next) :: right) =
      apply op (linkValue apply value first left) (linkValue apply value next right) := by
  refine linkValue_root (rootPlace_append (by rw [hop]; decide) ?_ ?_) <;> rw [hop]
  · exact (grouped first left).pass_le
  · exact fun link hlink => (hright.pass_le link hlink).trans_lt (by decide)

end MatrixCalculator.Chain
