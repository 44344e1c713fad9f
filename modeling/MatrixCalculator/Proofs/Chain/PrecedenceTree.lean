import MatrixCalculator.Chain.Reduction
import MatrixCalculator.Proofs.Outcome
import Mathlib.Tactic

/-!
# Precedence trees

What a chain means is a tree: its root is the operator that binds loosest, and
the chains on both sides of the root are the subtrees.  Among operators that bind
alike the last one is the root, except for powers, of which it is the first one.
The tree of a stretch of the chain has its root at the operator of the stretch
that is applied last, which is all that a reduction in place has to respect.
-/

namespace MatrixCalculator.Chain

open Outcome

variable {α : Type}

/-- The operands behind the first one, each with the operator in front of it. -/
abbrev Links (α : Type) := List (Operator × α)

def ofLinks (first : α) (links : Links α) : Chain α :=
  ⟨first :: links.map Prod.snd, links.map Prod.fst⟩

/-- Every chain that has one operand more than operators. -/
theorem exists_ofLinks {chain : Chain α}
    (hlength : chain.operands.length = chain.operators.length + 1) :
    ∃ first links, chain = ofLinks first links := by
  obtain ⟨operands, operators⟩ := chain
  cases operands with
  | nil => simp at hlength
  | cons first others =>
    have hothers : operators.length = others.length := by simpa using hlength.symm
    refine ⟨first, operators.zip others, ?_⟩
    simp only [ofLinks, Chain.mk.injEq, List.cons.injEq, true_and]
    constructor
    · rw [List.map_snd_zip hothers.ge]
    · rw [List.map_fst_zip hothers.le]

/-- An expression tree.  An application knows the place of its operator. -/
inductive Tree (α : Type) where
  | operand (x : α)
  | application (home : Nat) (op : Operator) (left right : Tree α)

namespace Tree

/-- The value of a tree, if all of its applications have one. -/
def eval (apply : Operator → α → α → Except Fault α) : Tree α → Except Fault α
  | operand x => .ok x
  | application _ op left right => do apply op (← left.eval apply) (← right.eval apply)

/-- The tree itself and everything below its root. -/
def subtrees : Tree α → List (Tree α)
  | operand x => [operand x]
  | application home op left right =>
    application home op left right :: (left.subtrees ++ right.subtrees)

theorem self_mem_subtrees (t : Tree α) : t ∈ t.subtrees := by
  cases t <;> simp [subtrees]

/-- Where a tree has a value, everything below its root has one. -/
theorem eval_of_mem_subtrees {apply : Operator → α → α → Except Fault α} {s t : Tree α}
    (hmem : s ∈ t.subtrees) (hvalue : ∃ value, t.eval apply = .ok value) :
    ∃ value, s.eval apply = .ok value := by
  induction t with
  | operand x =>
    obtain rfl : s = operand x := by simpa [subtrees] using hmem
    exact hvalue
  | application home op left right ihleft ihright =>
    have hparts := hvalue
    simp only [eval, bind_eq_ok_iff] at hparts
    obtain ⟨value, x, hx, y, hy, -⟩ := hparts
    simp only [subtrees, List.mem_cons, List.mem_append] at hmem
    rcases hmem with rfl | hmem | hmem
    · exact hvalue
    · exact ihleft hmem ⟨x, hx⟩
    · exact ihright hmem ⟨y, hy⟩

end Tree

/-! ## The order of application -/

def pass : Precedence → Nat
  | .power => 0
  | .multiplicative => 1
  | .additive => 2

/-- Whether an operator at its place is applied before another one: in an earlier
pass, or in the same pass before it.  Powers are applied from the right. -/
def AppliedBefore (a b : Operator × Nat) : Prop :=
  pass a.1.precedence < pass b.1.precedence ∨
    a.1.precedence = b.1.precedence ∧
      if a.1.precedence = .power then b.2 < a.2 else a.2 < b.2

theorem AppliedBefore.trans {a b c : Operator × Nat} (hab : AppliedBefore a b)
    (hbc : AppliedBefore b c) : AppliedBefore a c := by
  rcases hab with hab | ⟨hab, hplace⟩
  · rcases hbc with hbc | ⟨hbc, -⟩
    · exact .inl (hab.trans hbc)
    · exact .inl (by rwa [← hbc])
  · rcases hbc with hbc | ⟨hbc, hplace'⟩
    · exact .inl (by rwa [hab])
    · refine .inr ⟨hab.trans hbc, ?_⟩
      rw [hab] at hplace ⊢
      split_ifs at hplace hplace' ⊢
      · exact hplace'.trans hplace
      · exact hplace.trans hplace'

theorem AppliedBefore.irrefl (a : Operator × Nat) : ¬AppliedBefore a a := by
  rintro (hlt | ⟨-, hplace⟩)
  · exact lt_irrefl _ hlt
  · rw [ite_self] at hplace
    exact lt_irrefl _ hplace

theorem AppliedBefore.asymm {a b : Operator × Nat} (hab : AppliedBefore a b) :
    ¬AppliedBefore b a :=
  fun hba => irrefl a (hab.trans hba)

theorem AppliedBefore.ne {a b : Operator × Nat} (hab : AppliedBefore a b) : a ≠ b := by
  rintro rfl
  exact irrefl a hab

theorem pass_injective : Function.Injective pass := by
  rintro (_ | _ | _) (_ | _ | _) h <;> first | rfl | cases h

theorem appliedBefore_or {a b : Operator × Nat} (hne : a.2 ≠ b.2) :
    AppliedBefore a b ∨ AppliedBefore b a := by
  rcases lt_trichotomy (pass a.1.precedence) (pass b.1.precedence) with hlt | heq | hlt
  · exact .inl (.inl hlt)
  · have hsame := pass_injective heq
    rcases lt_or_gt_of_ne hne with hplace | hplace
    · by_cases hpower : a.1.precedence = .power
      · exact .inr (.inr ⟨hsame.symm, by rwa [if_pos (hsame ▸ hpower)]⟩)
      · exact .inl (.inr ⟨hsame, by rwa [if_neg hpower]⟩)
    · by_cases hpower : a.1.precedence = .power
      · exact .inl (.inr ⟨hsame, by rwa [if_pos hpower]⟩)
      · exact .inr (.inr ⟨hsame.symm, by rwa [if_neg (hsame ▸ hpower)]⟩)
  · exact .inr (.inl hlt)

theorem appliedBefore_add_iff {a b : Operator} {i j : Nat} (offset : Nat) :
    AppliedBefore (a, i + offset) (b, j + offset) ↔ AppliedBefore (a, i) (b, j) := by
  simp [AppliedBefore]

theorem operatorsOf_pairwise (precedence : Precedence) (operators : List Operator) :
    (operatorsOf precedence operators).Pairwise fun a b => a.2 < b.2 := by
  refine List.Pairwise.filter _ ?_
  rw [← List.pairwise_map, List.zipIdx_map_snd]
  exact List.pairwise_lt_range'

theorem precedence_of_mem_operatorsOf {precedence : Precedence} {operators : List Operator}
    {a : Operator × Nat} (hmem : a ∈ operatorsOf precedence operators) :
    a.1.precedence = precedence := by
  simpa using (List.mem_filter.1 hmem).2

theorem passOrder_pairwise (operators : List Operator) :
    (passOrder operators).Pairwise AppliedBefore := by
  have hpass : ∀ p q, pass p < pass q → ∀ a ∈ operatorsOf p operators,
      ∀ b ∈ operatorsOf q operators, AppliedBefore a b := by
    intro p q hlt a ha b hb
    left
    rwa [precedence_of_mem_operatorsOf ha, precedence_of_mem_operatorsOf hb]
  have hleft : ∀ p, p ≠ .power → (operatorsOf p operators).Pairwise AppliedBefore := by
    intro p hp
    refine (operatorsOf_pairwise p operators).imp_of_mem fun ha hb hlt => .inr ?_
    rw [precedence_of_mem_operatorsOf ha, precedence_of_mem_operatorsOf hb]
    simpa [hp] using hlt
  have hright : (operatorsOf .power operators).reverse.Pairwise AppliedBefore := by
    refine List.pairwise_reverse.2 ?_
    refine (operatorsOf_pairwise .power operators).imp_of_mem fun ha hb hlt => .inr ?_
    rw [precedence_of_mem_operatorsOf ha, precedence_of_mem_operatorsOf hb]
    simpa using hlt
  simp only [passOrder, List.pairwise_append, List.mem_append, List.mem_reverse]
  refine ⟨⟨hright, hleft _ (by decide), hpass _ _ (by decide)⟩, hleft _ (by decide), ?_⟩
  rintro a (ha | ha)
  · exact hpass _ _ (by decide) a ha
  · exact hpass _ _ (by decide) a ha

/-! ## Trees of chains -/

/-- The place of the last one of the operators that are sought. -/
def lastPlace? (sought : List Operator) : List Operator → Option Nat
  | [] => none
  | op :: operators =>
    match lastPlace? sought operators with
    | some place => some (place + 1)
    | none => if op ∈ sought then some 0 else none

/-- The place of the operator that binds loosest: the last sum, without sums the
last product, and without products the first power. -/
def rootPlace (operators : List Operator) : Nat :=
  ((lastPlace? [.add, .sub] operators).or (lastPlace? [.mul, .div, .mod] operators)).getD 0

/-- The precedence tree of a chain whose operators stand from the place `home` on. -/
def tree (home : Nat) (first : α) (links : Links α) : Tree α :=
  match hlink : links[rootPlace (links.map Prod.fst)]? with
  | none => .operand first
  | some (op, next) =>
    let place := rootPlace (links.map Prod.fst)
    have : place < links.length := (List.getElem?_eq_some_iff.1 hlink).1
    .application (home + place) op (tree home first (links.take place))
      (tree (home + place + 1) next (links.drop (place + 1)))
termination_by links.length
decreasing_by all_goals simp only [List.length_take, List.length_drop]; omega

theorem mem_sums_iff {op : Operator} : op ∈ [.add, .sub] ↔ op.precedence = .additive := by
  simp [Operator.precedence_eq_additive_iff]

theorem mem_products_iff {op : Operator} :
    op ∈ [.mul, .div, .mod] ↔ op.precedence = .multiplicative := by
  simp [Operator.precedence_eq_multiplicative_iff]

theorem lastPlace?_eq_none {sought operators : List Operator}
    (hother : ∀ op ∈ operators, op ∉ sought) : lastPlace? sought operators = none := by
  induction operators with
  | nil => rfl
  | cons op operators ih =>
    have hrest := ih fun other hmem => hother other (by simp [hmem])
    simp [lastPlace?, hrest, hother op (by simp)]

theorem lastPlace?_eq_some {sought operators : List Operator} {place : Nat} {op : Operator}
    (hplace : operators[place]? = some op) (hop : op ∈ sought)
    (hbehind : ∀ i other, place < i → operators[i]? = some other → other ∉ sought) :
    lastPlace? sought operators = some place := by
  induction operators generalizing place with
  | nil => simp at hplace
  | cons other operators ih =>
    cases place with
    | zero =>
      obtain rfl : other = op := by simpa using hplace
      have hnone : lastPlace? sought operators = none := by
        refine lastPlace?_eq_none fun last hmem => ?_
        obtain ⟨i, hi⟩ := List.mem_iff_getElem?.1 hmem
        exact hbehind (i + 1) last (by omega) (by simpa using hi)
      simp [lastPlace?, hnone, hop]
    | succ place =>
      have hrest := ih (by simpa using hplace) fun i last hlt hi =>
        hbehind (i + 1) last (by omega) (by simpa using hi)
      simp [lastPlace?, hrest]

/-- The root is the operator that is applied last. -/
theorem rootPlace_eq {operators : List Operator} {place : Nat} {op : Operator}
    (hplace : operators[place]? = some op)
    (hlast : ∀ i other, operators[i]? = some other → i ≠ place →
      AppliedBefore (other, i) (op, place)) :
    rootPlace operators = place := by
  have hpass : ∀ other ∈ operators, pass other.precedence ≤ pass op.precedence := by
    intro other hmem
    obtain ⟨i, hi⟩ := List.mem_iff_getElem?.1 hmem
    by_cases heq : i = place
    · obtain rfl : op = other := by simpa [heq, hplace] using hi
      exact le_rfl
    · rcases hlast i other hi heq with hlt | ⟨hsame, -⟩
      · exact hlt.le
      · exact (congrArg pass hsame).le
  have hfound : ∀ {p} sought, (∀ {op : Operator}, op ∈ sought ↔ op.precedence = p) →
      op.precedence = p → p ≠ .power → lastPlace? sought operators = some place := by
    rintro _ sought hsought rfl hpower
    refine lastPlace?_eq_some hplace (hsought.2 rfl) fun i other hlt hi hmem => ?_
    have hsame := hsought.1 hmem
    rcases hlast i other hi (by omega) with hearlier | ⟨-, hfront⟩
    · simp [hsame] at hearlier
    · simp [hsame, hpower] at hfront
      omega
  have hmissing : ∀ {p} sought, (∀ {op : Operator}, op ∈ sought ↔ op.precedence = p) →
      pass op.precedence < pass p → lastPlace? sought operators = none := by
    intro p sought hsought hlt
    refine lastPlace?_eq_none fun other hmem hfound => ?_
    have := hpass other hmem
    rw [hsought.1 hfound] at this
    omega
  cases hprecedence : op.precedence with
  | additive =>
    rw [rootPlace, hfound _ mem_sums_iff hprecedence (by decide)]
    rfl
  | multiplicative =>
    rw [hprecedence] at hmissing
    rw [rootPlace, hmissing _ mem_sums_iff (by decide),
      hfound _ mem_products_iff hprecedence (by decide)]
    rfl
  | power =>
    rw [hprecedence] at hmissing
    have hfirst : place = 0 := by
      by_contra hne
      have hlt : 0 < operators.length := by
        have := (List.getElem?_eq_some_iff.1 hplace).1
        omega
      rcases hlast 0 operators[0] (by simp [hlt]) (by omega) with hearlier | ⟨hsame, hfront⟩
      · simp [hprecedence, pass] at hearlier
      · simp [hsame, hprecedence] at hfront
    rw [rootPlace, hmissing _ mem_sums_iff (by decide), hmissing _ mem_products_iff (by decide),
      hfirst]
    rfl

theorem tree_of_none {home : Nat} {first : α} {links : Links α}
    (hnone : links[rootPlace (links.map Prod.fst)]? = none) :
    tree home first links = .operand first := by
  rw [tree]
  split
  · rfl
  · next hsome =>
    rw [hnone] at hsome
    cases hsome

@[simp]
theorem tree_nil (home : Nat) (first : α) : tree home first [] = .operand first := tree_of_none rfl

theorem tree_eq {home place : Nat} {first next : α} {op : Operator} {links : Links α}
    (hplace : links[place]? = some (op, next))
    (hroot : rootPlace (links.map Prod.fst) = place) :
    tree home first links =
      .application (home + place) op (tree home first (links.take place))
        (tree (home + place + 1) next (links.drop (place + 1))) := by
  rw [tree]
  split
  · next hnone => simp only [hroot, hplace, reduceCtorEq] at hnone
  · next hsome =>
    rw [hroot, hplace] at hsome
    cases hsome
    simp only [hroot]

/-- Powers bind from the right and before the product on their left. -/
example : tree 0 2 [(.mul, 3), (.pow, 4), (.pow, 5), (.sub, 6)] =
    .application 3 .sub
      (.application 0 .mul (.operand 2)
        (.application 1 .pow (.operand 3)
          (.application 2 .pow (.operand 4) (.operand 5))))
      (.operand 6) := by
  cbv

/-! ## Trees of stretches -/

def operandAt (first : α) (links : Links α) (place : Nat) : α :=
  ((first :: links.map Prod.snd)[place]?).getD first

def entryAt (links : Links α) (place : Nat) : Operator × Nat :=
  ((links.map Prod.fst).getD place .pow, place)

/-- The tree of the operands from the place `low` to the place `high`. -/
def treeBetween (first : α) (links : Links α) (low high : Nat) : Tree α :=
  tree low (operandAt first links low) ((links.drop low).take (high - low))

/-- Whether all other operators of a stretch are applied before the one at `home`. -/
def IsLast (links : Links α) (home low high : Nat) : Prop :=
  low ≤ home ∧ home < high ∧
    ∀ i, low ≤ i → i < high → i ≠ home → AppliedBefore (entryAt links i) (entryAt links home)

variable {first : α} {links : Links α} {home low high : Nat}

theorem treeBetween_self (place : Nat) :
    treeBetween first links place place = .operand (operandAt first links place) := by
  simp [treeBetween]

theorem treeBetween_whole :
    treeBetween first links 0 links.length = tree 0 first links := by
  simp [treeBetween, operandAt]

theorem entryAt_eq {op : Operator} {next : α} (hhome : links[home]? = some (op, next)) :
    entryAt links home = (op, home) := by
  simp [entryAt, hhome]

/-- The tree of a stretch has its root at the operator that is applied last. -/
theorem treeBetween_eq (hlast : IsLast links home low high) (hhigh : high ≤ links.length) :
    treeBetween first links low high =
      .application home (entryAt links home).1 (treeBetween first links low home)
        (treeBetween first links (home + 1) high) := by
  obtain ⟨hlow, hlt, hbefore⟩ := hlast
  obtain ⟨⟨op, next⟩, hhome⟩ : ∃ link, links[home]? = some link :=
    ⟨links[home], List.getElem?_eq_getElem (by omega)⟩
  have hstretch : ∀ i, low + i < high →
      ((links.drop low).take (high - low))[i]? = links[low + i]? := by
    intro i hi
    rw [List.getElem?_take_of_lt (by omega), List.getElem?_drop]
  have hplace : ((links.drop low).take (high - low))[home - low]? = some (op, next) := by
    rw [hstretch _ (by omega), show low + (home - low) = home by omega, hhome]
  have hroot : rootPlace (((links.drop low).take (high - low)).map Prod.fst) = home - low := by
    have hop : (((links.drop low).take (high - low)).map Prod.fst)[home - low]? = some op := by
      rw [List.getElem?_map, hplace, Option.map_some]
    refine rootPlace_eq hop fun i other hi hne => ?_
    have hlength : i < high - low := by
      have := (List.getElem?_eq_some_iff.1 hi).1
      simp at this
      omega
    obtain ⟨⟨op', next'⟩, hlink, rfl⟩ : ∃ link, links[low + i]? = some link ∧ link.1 = other := by
      rw [List.getElem?_map, hstretch i (by omega)] at hi
      exact Option.map_eq_some_iff.1 hi
    have hearlier := hbefore (low + i) (by omega) (by omega) (by omega)
    rw [entryAt_eq hlink, entryAt_eq hhome] at hearlier
    rw [← appliedBefore_add_iff low, show i + low = low + i by omega,
      show home - low + low = home by omega]
    exact hearlier
  have hnext : operandAt first links (home + 1) = next := by simp [operandAt, hhome]
  have hsum : low + (home - low) = home := by omega
  rw [treeBetween, tree_eq hplace hroot, entryAt_eq hhome, List.take_take, List.drop_take,
    List.drop_drop, treeBetween, treeBetween, hnext, hsum,
    show min (home - low) (high - low) = home - low by omega,
    show low + (home - low + 1) = home + 1 by omega,
    show high - low - (home - low + 1) = high - (home + 1) by omega]

/-- Every stretch with an operator has one that is applied last. -/
theorem exists_isLast (hlt : low < high) : ∃ home, IsLast links home low high := by
  obtain ⟨count, rfl⟩ := Nat.exists_eq_add_of_lt hlt
  clear hlt
  induction count with
  | zero => exact ⟨low, le_rfl, by omega, fun i hlow hi hne => by omega⟩
  | succ count ih =>
    obtain ⟨home, hlow, hhome, hbefore⟩ := ih
    have hne : (entryAt links home).2 ≠ (entryAt links (low + count + 1)).2 := by
      simp only [entryAt]
      omega
    rcases appliedBefore_or hne with hearlier | hlater
    · refine ⟨low + count + 1, by omega, by omega, fun i hi hlt hother => ?_⟩
      by_cases heq : i = home
      · rwa [heq]
      · exact (hbefore i hi (by omega) heq).trans hearlier
    · refine ⟨home, hlow, by omega, fun i hi hlt hother => ?_⟩
      by_cases heq : i = low + count + 1
      · rwa [heq]
      · exact hbefore i hi (by omega) hother

/-- Whether an operator is applied last on a stretch, and before the operators at
both ends of it, as far as these lie on a longer stretch. -/
structure Spans (links : Links α) (home low high outerLow outerHigh : Nat) : Prop where
  isLast : IsLast links home low high
  outerLow_le : outerLow ≤ low
  le_outerHigh : high ≤ outerHigh
  before_low : ∀ i, i + 1 = low → outerLow ≤ i →
    AppliedBefore (entryAt links home) (entryAt links i)
  before_high : high < outerHigh → AppliedBefore (entryAt links home) (entryAt links high)

variable {outerLow outerHigh : Nat}

/-- The tree of the stretch that an operator spans stands in the tree of the longer
stretch. -/
theorem mem_subtrees_of_spans (hspans : Spans links home low high outerLow outerHigh)
    (houter : outerHigh ≤ links.length) :
    treeBetween first links low high ∈ (treeBetween first links outerLow outerHigh).subtrees := by
  induction hcount : outerHigh - outerLow using Nat.strong_induction_on
    generalizing outerLow outerHigh with
  | h count ih =>
    obtain ⟨hlast, hlow, hhigh, hbeforeLow, hbeforeHigh⟩ := hspans
    have hrange := hlast
    obtain ⟨hge, hlt, hbefore⟩ := hrange
    obtain ⟨root, hroot⟩ : ∃ root, IsLast links root outerLow outerHigh :=
      exists_isLast (by omega)
    have hrootRange := hroot
    obtain ⟨hrootGe, hrootLt, hrootBefore⟩ := hrootRange
    by_cases heq : root = home
    · subst heq
      have hlowEq : low = outerLow := by
        by_contra hne
        exact (hbeforeLow (low - 1) (by omega) (by omega)).asymm
          (hrootBefore (low - 1) (by omega) (by omega) (by omega))
      have hhighEq : high = outerHigh := by
        by_contra hne
        exact (hbeforeHigh (by omega)).asymm
          (hrootBefore high (by omega) (by omega) (by omega))
      rw [hlowEq, hhighEq]
      exact Tree.self_mem_subtrees _
    · have hlater := hrootBefore home (by omega) (by omega) (Ne.symm heq)
      have houtside : root < low ∨ high ≤ root := by
        by_contra hinside
        exact hlater.asymm (hbefore root (by omega) (by omega) heq)
      rw [treeBetween_eq hroot houter]
      simp only [Tree.subtrees, List.mem_cons, List.mem_append]
      rcases houtside with hside | hside
      · refine .inr (.inr (ih _ ?_ ⟨hlast, by omega, hhigh, ?_, hbeforeHigh⟩ houter rfl))
        · omega
        · exact fun i hi hle => hbeforeLow i hi (by omega)
      · refine .inr (.inl (ih _ ?_ ⟨hlast, hlow, hside, hbeforeLow, ?_⟩ (by omega) rfl))
        · omega
        · exact fun hlt => hbeforeHigh (by omega)

/-- The applications of a tree are the stretches that its operators span. -/
theorem spans_of_mem_subtrees {op : Operator} {left right : Tree α}
    (houter : outerHigh ≤ links.length)
    (hmem : .application home op left right ∈
      (treeBetween first links outerLow outerHigh).subtrees) :
    ∃ low high, Spans links home low high outerLow outerHigh ∧
      .application home op left right = treeBetween first links low high := by
  induction hcount : outerHigh - outerLow using Nat.strong_induction_on
    generalizing outerLow outerHigh with
  | h count ih =>
    by_cases hlt : outerLow < outerHigh
    · obtain ⟨root, hroot⟩ : ∃ root, IsLast links root outerLow outerHigh := exists_isLast hlt
      have hrootRange := hroot
      obtain ⟨hrootGe, hrootLt, hrootBefore⟩ := hrootRange
      have hwhole : treeBetween first links outerLow outerHigh = _ := treeBetween_eq hroot houter
      rw [hwhole] at hmem
      simp only [Tree.subtrees, List.mem_cons, List.mem_append] at hmem
      rcases hmem with heq | hmem | hmem
      · obtain rfl : home = root := (Tree.application.inj heq).1
        refine ⟨outerLow, outerHigh, ⟨hroot, le_rfl, le_rfl, ?_, ?_⟩, heq.trans hwhole.symm⟩
        · intro i hi hle
          omega
        · intro hhigh
          omega
      · obtain ⟨low, high, ⟨hlast, hlow, hhigh, hbeforeLow, hbeforeHigh⟩, htree⟩ :=
          ih _ (by omega) (by omega) hmem rfl
        have hplace := hlast.1
        have hplace' := hlast.2.1
        refine ⟨low, high, ⟨hlast, hlow, by omega, hbeforeLow, fun hlt => ?_⟩, htree⟩
        by_cases hend : high = root
        · rw [hend]
          exact hrootBefore home (by omega) (by omega) (by omega)
        · exact hbeforeHigh (by omega)
      · obtain ⟨low, high, ⟨hlast, hlow, hhigh, hbeforeLow, hbeforeHigh⟩, htree⟩ :=
          ih _ (by omega) houter hmem rfl
        have hplace := hlast.1
        have hplace' := hlast.2.1
        refine ⟨low, high, ⟨hlast, by omega, hhigh, fun i hi hle => ?_, hbeforeHigh⟩, htree⟩
        by_cases hend : i = root
        · rw [hend]
          exact hrootBefore home (by omega) (by omega) (by omega)
        · exact hbeforeLow i hi (by omega)
    · have hempty : treeBetween first links outerLow outerHigh =
          .operand (operandAt first links outerLow) := by
        simp [treeBetween, show outerHigh - outerLow = 0 by omega]
      simp [hempty, Tree.subtrees] at hmem

end MatrixCalculator.Chain
