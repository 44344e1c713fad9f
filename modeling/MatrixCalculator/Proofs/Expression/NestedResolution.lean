import MatrixCalculator.Proofs.Expression.NestedChains

/-!
# Resolving nested chains

From the inside out every chain in parentheses becomes a term of the chain around it: a
single term stays as it is, and what is written of the value of a longer chain is a term
again.  It denotes nothing where the value is not a number, and no chain with such a term
has a value.
-/

namespace MatrixCalculator

open Chain Expression Numeral Outcome Text

/-! ## What becomes of terms -/

namespace Expression

variable {limit levels : Nat} {outcome : Except Fault Text} {ends : Prop}

/-- Whether a text becomes a term, at whose end there is a digit under a condition, or
fails as one that denotes nothing. -/
def BecomesTerm (limit : Nat) (outcome : Except Fault Text) (value? : Option Float)
    (ends : Prop) : Prop :=
  (∃ text, outcome = .ok text ∧ Reads limit Set.univ text (value?.map .scalar) ∧
      (ends → value? ≠ none → endsOperand (ending none text) = true)) ∨
    value? = none ∧ outcome = .error undefinedFault

def operandLinks (v : TermValues) : Links (Option Operand) :=
  v.links.map fun link => (link.1, link.2.map .scalar)

/-- Whether a text becomes a chain of terms, or fails as one with a term that denotes
nothing. -/
def BecomesChain (limit : Nat) (outcome : Except Fault Text) (v : TermValues)
    (ends : Prop) : Prop :=
  (∃ text links, outcome = .ok (linkedText text links) ∧
      ChainReads limit Set.univ text links (v.first.map .scalar) (operandLinks v) ∧
      (ends → v.links = [] → v.first ≠ none → endsOperand (ending none text) = true)) ∨
    v.isDefined = false ∧ outcome = .error undefinedFault

theorem allDefined_operandLinks (v : TermValues) :
    allDefined (v.first.map Operand.scalar) (operandLinks v) = v.isDefined := by
  simp [allDefined, TermValues.isDefined, operandLinks, List.all_map, Function.comp_def]

theorem orZero_scalar (x? : Option Float) : orZero (x?.map .scalar) = .scalar (x?.getD 0) := by
  cases x? <;> rfl

/-- The value of a chain is the one of its operands. -/
theorem eval_operandLinks (v : TermValues) :
    (tree 0 (orZero (v.first.map .scalar))
        ((operandLinks v).map fun link => (link.1, orZero link.2))).eval Operator.apply =
      .ok (.scalar v.value) := by
  have hrun : ∀ op x y,
      Operator.apply op (.scalar x) (.scalar y) = .ok (.scalar (op.onScalars x y)) :=
    fun _ _ _ => rfl
  have hlinks : ((operandLinks v).map fun link => (link.1, orZero link.2)) =
      (v.links.map fun link => (link.1, link.2.getD 0)).map
        fun link => (link.1, Operand.scalar link.2) := by
    simp [operandLinks, Function.comp_def]
  rw [TermValues.value, linkValue, ← eval_tree_map hrun 0 0, hlinks, orZero_scalar]

/-- A chain of terms becomes one term: a single one stays as it is, and what is written of
the value of a longer one is a term. -/
theorem BecomesChain.becomesTerm {v : TermValues} (hchain : BecomesChain limit outcome v ends)
    (hfinite : ends → v.links ≠ [] → ∀ x, v.handedOn = some x → x.isFinite = true) :
    BecomesTerm limit (outcome >>= resolve limit (levels + 1)) v.handedOn ends := by
  obtain ⟨text, links, rfl, hreads, hends⟩ | ⟨hdefined, rfl⟩ := hchain
  · have hall := allDefined_operandLinks v
    have hvalue : reduce Operator.apply (operandChain (v.first.map .scalar) (operandLinks v)) = _ :=
      reduce_ofLinks_eq_ok_iff.2 (eval_operandLinks v)
    rw [ok_bind, resolve, passes_linkedText hreads (Set.mem_univ _)]
    obtain ⟨first, values⟩ := v
    cases values with
    | nil =>
      cases hreads with
      | single hterm =>
        exact .inl ⟨text, reduceText_term hterm, hterm, fun hend hne => hends hend rfl hne⟩
    | cons link values =>
      have hlinks : links ≠ [] := by
        rintro rfl
        cases hreads
      rw [TermValues.handedOn_cons] at hfinite ⊢
      cases hdefined : (⟨first, link :: values⟩ : TermValues).isDefined with
      | false =>
        rw [hdefined] at hall
        obtain hfails | ⟨-, hterm, hreduced⟩ :=
          reduceText_linkedText_undefined hreads (Set.mem_univ _) hall
        · exact .inr ⟨rfl, hfails⟩
        · exact .inl ⟨_, hreduced, hterm, fun _ hne => absurd rfl hne⟩
      | true =>
        rw [hdefined] at hall hfinite
        rw [reduceText_linkedText hreads (Set.mem_univ _) hlinks hall, hvalue]
        refine .inl ⟨_, rfl, reads_write _, fun hend hne => ?_⟩
        obtain ⟨x, hx⟩ := Option.ne_none_iff_exists'.1 hne
        have hshown := hfinite hend (List.cons_ne_nil _ _) x hx
        obtain ⟨-, rfl⟩ := shown?_eq_some_iff.1 hx
        have hpiece := isPiece_write hshown
        rw [write_shown] at hpiece
        exact hpiece.ends none
  · exact .inr ⟨TermValues.handedOn_of_not_isDefined hdefined, rfl⟩

variable {outcome' : Except Fault Text} {x? : Option Float} {v : TermValues} {ends' : Prop}
  {op : Operator}

theorem BecomesTerm.minus (hterm : BecomesTerm limit outcome x? ends) :
    BecomesTerm limit (('-' :: ·) <$> outcome) (x?.map (-·)) ends := by
  obtain ⟨text, rfl, hreads, hends⟩ | ⟨rfl, rfl⟩ := hterm
  · refine .inl ⟨'-' :: text, rfl, hreads.minus, fun hend hne => ?_⟩
    have hending : ending none ('-' :: text) = ending none text := hreads.ending_eq (some '-')
    exact hending ▸ hends hend (by simpa using hne)
  · exact .inr ⟨rfl, rfl⟩

theorem BecomesTerm.single (hterm : BecomesTerm limit outcome x? ends) :
    BecomesChain limit outcome ⟨x?, []⟩ ends := by
  obtain ⟨text, rfl, hreads, hends⟩ | ⟨rfl, rfl⟩ := hterm
  · exact .inl ⟨text, [], rfl, .single hreads, fun hend _ => hends hend⟩
  · exact .inr ⟨rfl, rfl⟩

theorem BecomesTerm.link (hterm : BecomesTerm limit outcome x? ends)
    (hrest : BecomesChain limit outcome' v ends') (hop : op = .sub → ends) :
    BecomesChain limit (do
      let text ← outcome
      let rest ← outcome'
      return text ++ (op.symbol ++ rest)) ⟨x?, (op, v.first) :: v.links⟩ False := by
  have hdefined : (⟨x?, (op, v.first) :: v.links⟩ : TermValues).isDefined =
      (x?.isSome && v.isDefined) := rfl
  obtain ⟨text, rfl, hreads, hends⟩ | ⟨rfl, rfl⟩ := hterm
  · obtain ⟨next, links, rfl, hchain, -⟩ | ⟨hnone, rfl⟩ := hrest
    · refine .inl ⟨text, (op, next) :: links, rfl, .link op hreads (fun hsub hne => ?_) hchain,
        False.elim⟩
      exact hends (hop hsub) (by simpa using hne)
    · exact .inr ⟨by rw [hdefined, hnone, Bool.and_false], rfl⟩
  · exact .inr ⟨rfl, rfl⟩

/-- A term fails in no other way, and brings no parentheses. -/
theorem BecomesTerm.sound (hterm : BecomesTerm limit outcome x? ends) :
    FailsOnlyWith undefinedFault outcome ∧
      ∀ value, outcome = .ok value → '(' ∉ value ∧ ')' ∉ value := by
  obtain ⟨text, rfl, hreads, -⟩ | ⟨-, rfl⟩ := hterm
  · refine ⟨failsOnlyWith_ok _ text, ?_⟩
    rintro _ ⟨⟩
    exact hreads.ungrouped
  · refine ⟨?_, nofun⟩
    rintro _ ⟨⟩
    rfl

theorem BecomesChain.weaken (hchain : BecomesChain limit outcome v ends)
    (hends : ends' → v.links = [] → ends) : BecomesChain limit outcome v ends' :=
  hchain.imp_left fun ⟨text, links, houtcome, hreads, hclosed⟩ =>
    ⟨text, links, houtcome, hreads, fun hend hlinks => hclosed (hends hend hlinks) hlinks⟩

end Expression

variable {limit levels : Nat}

theorem NestedChain.isFinite_handedOn (e : NestedChain) (hends : e.EndsInDigit)
    (hlinks : e.values.links ≠ []) : ∀ x, e.values.handedOn = some x → x.isFinite = true := by
  cases e with
  | single t => exact absurd rfl hlinks
  | link t op rest => exact hends

mutual

theorem NestedTerm.becomesTerm : ∀ t : NestedTerm, t.HasClosedMinuends →
    BecomesTerm limit ((t.onto (.plain [])).flatten (resolve limit (levels + 1))) t.value?
      t.EndsInDigit
  | .numeral s, _ => by
    refine .inl ⟨s.text, ?_, reads_numeral s, fun hends _ => hends⟩
    exact congrArg Except.ok (List.append_nil s.text)
  | .group inner, hminuends => by
    have hvalue : BecomesTerm limit (_ >>= resolve limit (levels + 1)) _ _ :=
      (inner.becomesChain hminuends).becomesTerm inner.isFinite_handedOn
    have hflatten : ((NestedTerm.group inner).onto (.plain [])).flatten
        (resolve limit (levels + 1)) =
          inner.tree.flatten (resolve limit (levels + 1)) >>= resolve limit (levels + 1) := by
      rw [NestedTerm.onto, Nested.flatten_group]
      cases inner.tree.flatten (resolve limit (levels + 1)) >>= resolve limit (levels + 1) with
      | error cause => rfl
      | ok value => exact congrArg Except.ok (List.append_nil value)
    rw [hflatten]
    exact hvalue
  | .minus t, hminuends => by
    rw [NestedTerm.onto, Nested.flatten_prepend]
    exact (t.becomesTerm hminuends).minus

theorem NestedChain.becomesChain : ∀ e : NestedChain, e.HasClosedMinuends →
    BecomesChain limit (e.tree.flatten (resolve limit (levels + 1))) e.values e.EndsInDigit
  | .single t, hminuends => (t.becomesTerm hminuends).single
  | .link t op rest, ⟨hop, hfirst, hrest⟩ => by
    rw [NestedChain.tree, t.flatten_onto, Nested.flatten_prepend]
    have hlinked : BecomesChain limit _ _ (NestedChain.link t op rest).EndsInDigit :=
      ((t.becomesTerm hfirst).link (rest.becomesChain hrest) hop).weaken
        fun _ hlinks => absurd hlinks (List.cons_ne_nil _ _)
    simp only [map_eq_pure_bind, bind_assoc, pure_bind]
    exact hlinked

end

mutual

theorem NestedTerm.isSound {rest : Nested}
    (hrest : rest.IsSound (resolve limit (levels + 1)) undefinedFault) :
    ∀ t : NestedTerm, t.HasClosedMinuends →
      (t.onto rest).IsSound (resolve limit (levels + 1)) undefinedFault
  | .numeral s, _ =>
    hrest.prepend (not_mem_typed (by decide) (by decide)) (not_mem_typed (by decide) (by decide))
  | .group inner, hminuends => by
    refine ⟨⟨List.not_mem_nil, List.not_mem_nil⟩, inner.isSound hminuends, hrest,
      fun body hbody => ?_⟩
    have hchain : BecomesChain limit (inner.tree.flatten (resolve limit (levels + 1))) _ _ :=
      inner.becomesChain hminuends
    rw [hbody] at hchain
    obtain ⟨text, links, hlinked, hreads, -⟩ | ⟨-, herror⟩ := id hchain
    · cases hlinked
      exact ⟨hreads.ne_nil, (hchain.becomesTerm inner.isFinite_handedOn).sound⟩
    · cases herror
  | .minus t, hminuends => (t.isSound hrest hminuends).prepend (by decide) (by decide)

theorem NestedChain.isSound : ∀ e : NestedChain, e.HasClosedMinuends →
    e.tree.IsSound (resolve limit (levels + 1)) undefinedFault
  | .single t, hminuends => by
    have hnil : Nested.IsSound (resolve limit (levels + 1)) undefinedFault (.plain []) :=
      ⟨List.not_mem_nil, List.not_mem_nil⟩
    exact t.isSound hnil hminuends
  | .link t op rest, ⟨_, hfirst, hrest⟩ =>
    t.isSound ((rest.isSound hrest).prepend (not_mem_symbol op (by decide))
      (not_mem_symbol op (by decide))) hfirst

end

/-! ## In parentheses -/

namespace NestedChain

variable {e : NestedChain} {x : Float}

theorem count_text (e : NestedChain) (hminuends : e.HasClosedMinuends) :
    e.text.count '(' = e.text.count ')' := by
  have hsound : e.tree.IsSound (resolve 0 1) undefinedFault := e.isSound hminuends
  have hcount := count_nested hsound
  rw [e.text_tree] at hcount
  rw [hcount.1, hcount.2]

end NestedChain

end MatrixCalculator
