import MatrixCalculator.Proofs.Expression.Operands
import MatrixCalculator.Proofs.Expression.Quiet

/-!
# Flat chains as expressions with matrices

An expression with matrices is split at its operators and reduced in place, a scalar
expression is read lexeme by lexeme.  On a flat chain both arrive at the value of the
precedence tree, and what is written of the value is read back without a change.
-/

namespace MatrixCalculator.Expression

open Chain Numeral Outcome Text

variable {first : SignedSpelling} {links : Links SignedSpelling} {previous : Option Char}
  {limit : Nat} {evaluate : Text → Except Fault Text}

/-! ## The text of a chain -/

theorem fits_chainText (first : SignedSpelling) (links : Links SignedSpelling) :
    Fits IsQuiet (chainText first links) := by
  induction links generalizing first with
  | nil => exact fits_signed first
  | cons link links ih => exact (fits_signed first).append ((fits_symbol link.1).append (ih link.2))

/-- A chain has no brackets and no parentheses. -/
theorem not_mem_chainText {c : Char} (hnumeral : c ∉ numeralAlphabet)
    (hsymbol : c ∉ operatorAlphabet) (first : SignedSpelling) (links : Links SignedSpelling) :
    c ∉ chainText first links := by
  induction links generalizing first with
  | nil => exact not_mem_signed first hnumeral
  | cons link links ih =>
    simp only [chainText, List.mem_append, not_or]
    exact ⟨not_mem_signed first hnumeral, not_mem_symbol link.1 hsymbol, ih link.2⟩

/-- Splitting the text of a chain finds its numerals. -/
theorem splitAfter_chainText (first : SignedSpelling) (links : Links SignedSpelling)
    (hbegins : endsOperand previous = false) :
    splitAfter previous (chainText first links) =
      ofLinks first.text (links.map fun link => (link.1, link.2.text)) := by
  induction links generalizing first previous with
  | nil => exact splitAfter_eq ((isPiece_signed first).solid previous hbegins)
  | cons link links ih =>
    obtain ⟨op, next⟩ := link
    rw [chainText, splitAfter_piece op hbegins (isPiece_signed first),
      ih next (endsOperand_symbol _ op)]
    rfl

/-! ## Reduction -/

theorem operand_signed (s : SignedSpelling) :
    operand limit evaluate s.text = .ok (.scalar s.value) := by
  have htext : '[' ∉ s.text := not_mem_signed s (by decide)
  rw [operand_of_no_literal htext, Scalar.evaluate_signed, map_ok]

theorem mapM_operand (limit : Nat) (evaluate : Text → Except Fault Text)
    (numerals : List SignedSpelling) :
    (numerals.map SignedSpelling.text).mapM (operand limit evaluate) =
      .ok (numerals.map fun s => .scalar s.value) := by
  induction numerals with
  | nil => rfl
  | cons s numerals ih =>
    rw [List.map_cons, List.mapM_cons, operand_signed, ok_bind, ih, ok_bind]
    rfl

/-- Reduction leaves a single numeral as it is and writes the value of a longer chain. -/
theorem exists_reduceText_chain (limit : Nat) (evaluate : Text → Except Fault Text) {x : Float}
    (hvalue : (chainTree 0 first links).eval Operator.apply = .ok (.scalar x)) :
    ∃ resolved, reduceText limit evaluate (chainText first links) = .ok resolved ∧
      (resolved = first.text ∧ links = [] ∨ resolved = write x) := by
  have hsplit : split (chainText first links) = _ := splitAfter_chainText first links rfl
  cases links with
  | nil => exact ⟨first.text, reduceText_of_atom hsplit rfl, .inl ⟨rfl, rfl⟩⟩
  | cons link links =>
    have hnumerals : (ofLinks first.text
        ((link :: links).map fun link => (link.1, link.2.text))).operands =
          (first :: (link :: links).map Prod.snd).map SignedSpelling.text := by
      simp [ofLinks]
    have hoperands := mapM_operand limit evaluate (first :: (link :: links).map Prod.snd)
    rw [← hnumerals] at hoperands
    have hchain : (⟨(first :: (link :: links).map Prod.snd).map fun s => .scalar s.value,
        (ofLinks first.text ((link :: links).map fun link => (link.1, link.2.text))).operators⟩ :
          Chain Operand) = ofLinks (.scalar first.value) (chainValues (link :: links)) := by
      simp [ofLinks, chainValues]
    refine ⟨write x, ?_, .inr rfl⟩
    rw [reduceText_of_chain hsplit (List.cons_ne_nil _ _) hoperands, hchain,
      reduce_ofLinks_eq_ok_iff.2 hvalue]
    rfl

/-- What the passes leave of a chain is the chain itself or its value. -/
theorem exists_passes_chain {x : Float} (chain : FlatChain)
    (hvalue : (chainTree 0 chain.first chain.links).eval Operator.apply = .ok (.scalar x)) :
    ∃ resolved, passes limit evaluate chain.text = .ok resolved ∧
      (resolved = chain.text ∧ chain.links = [] ∨ resolved = write x) := by
  obtain ⟨first, links, hunsigned⟩ := chain
  have hpasses : passes limit evaluate (chainText first links) =
      reduceText limit evaluate (chainText first links) :=
    passes_eq (keepsLiterals_of_not_mem (not_mem_chainText (by decide) (by decide) _ _))
      (fits_chainText first links none) (not_mem_chainText (by decide) (by decide) _ _)
      (not_mem_chainText (by decide) (by decide) _ _)
  obtain ⟨resolved, hreduced, hresolved⟩ := exists_reduceText_chain limit evaluate hvalue
  refine ⟨resolved, hpasses.trans hreduced, hresolved.imp ?_ id⟩
  rintro ⟨rfl, rfl⟩
  exact ⟨rfl, rfl⟩

/-- On a flat chain the evaluator of expressions with matrices and the one of scalar
expressions both give the same text or both give none. -/
theorem evaluate_flatChain (chain : FlatChain) (limit : Nat) :
    (Expression.evaluate limit Separators.canonical chain.text).toOption =
      (Scalar.solve limit chain.text).toOption := by
  obtain ⟨x, htree, hscalar⟩ := Scalar.evaluate_chain chain limit
  obtain ⟨resolved, hpasses, hresolved⟩ := exists_passes_chain chain htree
  replace hresolved := hresolved.imp And.left id
  have hbrackets : ∀ text, text = chain.text ∨ text = write x → '[' ∉ text := by
    rintro text (rfl | rfl)
    · exact not_mem_chainText (by decide) (by decide) _ _
    · exact not_mem_number x (by decide)
  have hquiet : Follows IsQuiet none chain.text := fits_chainText chain.first chain.links none
  rw [evaluate_eq_bind hquiet (keepsLiterals_of_not_mem (hbrackets _ (.inl rfl))), hpasses, ok_bind,
    operand_of_no_literal (hbrackets _ hresolved), Scalar.solve, hscalar]
  cases hnumber : x.isNaN with
  | true =>
    have hfails : ∃ cause, Scalar.evaluate limit resolved = .error cause := by
      rcases hresolved with rfl | rfl
      · exact ⟨_, by rw [hscalar, hnumber]; rfl⟩
      · exact ⟨_, Scalar.evaluate_write_of_isNaN hnumber limit⟩
    obtain ⟨cause, hcause⟩ := hfails
    rw [hcause]
    rfl
  | false =>
    have hreads : ∃ y, Scalar.evaluate limit resolved = .ok y ∧ write y = write x := by
      rcases hresolved with rfl | rfl
      · exact ⟨x, by rw [hscalar, hnumber]; rfl, rfl⟩
      · exact ⟨shown x, Scalar.evaluate_write hnumber limit, write_shown x⟩
    obtain ⟨y, hy, hwrite⟩ := hreads
    have hcontains : contains notANumberWord (write x) = false :=
      (Operand.contains_write_iff (.scalar x)).2 hnumber
    rw [hy, map_ok, ok_bind, Operand.write, hwrite, hcontains]
    rfl

end MatrixCalculator.Expression
