import MatrixCalculator.Proofs.Literal

/-!
# Operands as they are shown

What is written of an operand is the operand with its noise set to zero.  It holds the
word for what is not a number exactly where an entry is none.
-/

namespace MatrixCalculator

open Expression Numeral Text

namespace Operand

/-- The operand that is read where an operand has been written. -/
def shown : Operand → Operand
  | scalar x => scalar (Numeral.shown x)
  | matrix m => matrix (m.map Numeral.shown)

/-- Whether a number and every entry of a matrix is one. -/
def IsNumber : Operand → Prop
  | scalar x => x.isNaN = false
  | matrix m => ∀ x ∈ m.entries, x.isNaN = false

instance : (x : Operand) → Decidable x.IsNumber
  | scalar x => inferInstanceAs (Decidable (x.isNaN = false))
  | matrix m => inferInstanceAs (Decidable (∀ x ∈ m.entries, x.isNaN = false))

/-- Writing the operand shown changes nothing. -/
theorem write_shown (x : Operand) : x.shown.write = x.write := by
  cases x with
  | scalar x => exact Numeral.write_shown x
  | matrix m => exact Literal.write_map_shown m

/-- An entry of a matrix is written in its literal. -/
theorem isInfix_write {m : Matrix Float} {x : Float} (hx : x ∈ m.entries) :
    Numeral.write x <:+: Literal.write m := by
  obtain ⟨row, hrow, hx⟩ := List.mem_flatten.1 hx
  obtain ⟨before, after, hrows⟩ := List.append_of_mem hrow
  have hfield : Numeral.write x <:+: Literal.rowText row := isInfix_intercalate_map hx
  refine hfield.trans ⟨['['] ++ before.flatMap Literal.writeRow ++ ['['],
    [']'] ++ after.flatMap Literal.writeRow ++ [']'], ?_⟩
  simp [Literal.write, hrows, Literal.writeRow_eq]

theorem not_mem_literal {m : Matrix Float} (hm : ∀ x ∈ m.entries, x.isNaN = false) :
    'N' ∉ Literal.write m := by
  have hrows : 'N' ∉ m.rows.flatMap Literal.writeRow := by
    intro hmem
    obtain ⟨row, hrow, hmem⟩ := List.mem_flatMap.1 hmem
    have hfields : 'N' ∉ Literal.rowText row := Literal.not_mem_rowText (by decide)
      fun x hx => not_mem_write (hm x (List.mem_flatten.2 ⟨row, hrow, hx⟩))
    simp [Literal.writeRow_eq, hfields] at hmem
  simp [Literal.write, hrows]

/-- The word for what is not a number is in the text of an operand exactly where an
entry is not a number. -/
theorem contains_write_iff (x : Operand) :
    contains notANumberWord x.write = false ↔ x.IsNumber := by
  have hfound : ∀ {y : Float} {text : Text}, y.isNaN = true → Numeral.write y <:+: text →
      contains notANumberWord text = true := by
    intro y text hy hinfix
    rw [write_of_isNaN hy] at hinfix
    exact contains_iff.2 hinfix
  have hmissing : ∀ {text : Text}, 'N' ∉ text → contains notANumberWord text = false := by
    intro text htext
    rw [contains, cut?_eq_none (show 'N' ∈ notANumberWord by decide) htext]
    rfl
  cases x with
  | scalar x =>
    refine ⟨fun hcontains => ?_, fun hx => hmissing (not_mem_write hx)⟩
    by_contra hx
    rw [IsNumber, Bool.not_eq_false] at hx
    rw [write, hfound hx List.infix_rfl] at hcontains
    cases hcontains
  | matrix m =>
    refine ⟨fun hcontains x hx => ?_, fun hm => hmissing (not_mem_literal hm)⟩
    by_contra hnan
    rw [Bool.not_eq_false] at hnan
    rw [write, hfound hnan (isInfix_write hx)] at hcontains
    cases hcontains

end Operand

end MatrixCalculator
