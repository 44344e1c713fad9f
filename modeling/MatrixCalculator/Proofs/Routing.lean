import MatrixCalculator.Calculator
import MatrixCalculator.Proofs.Literal.Shape
import MatrixCalculator.Proofs.Scalar.Characters
import MatrixCalculator.Proofs.Text

/-!
# Which evaluator an expression is given to

The decision is made on the text as typed, by the shape of the literals in it, while
the fields of a literal may be any expressions.  Brackets mean nothing in a scalar
expression, so a text that holds literals but none of numerals alone is given to the
evaluator that cannot read it.
-/

namespace MatrixCalculator

open Literal Outcome Text

/-! ## Brackets as typed -/

theorem Separators.ofLocale_cases (tag : Text) :
    Separators.ofLocale tag = .canonical ∨ Separators.ofLocale tag = .ofDecimalPoint ',' := by
  rw [Separators.ofLocale]
  split
  · exact .inr rfl
  · exact .inl rfl

namespace Display

variable {separators : Separators} {text : Text} {c : Char}

/-- A character that is not layout is entered. -/
theorem enterChar_mem_enter (hmem : c ∈ text) (hlayout : isLayout separators c = false) :
    enterChar separators c ∈ enter separators text :=
  List.mem_map_of_mem (List.mem_filter.2 ⟨hmem, by simp [hlayout]⟩)

theorem bracket_mem_enter (tag : Text) (hmem : '[' ∈ text) :
    '[' ∈ enter (.ofLocale tag) text := by
  rcases Separators.ofLocale_cases tag with hseparators | hseparators
  · rw [hseparators]
    exact enterChar_mem_enter hmem (by decide)
  · rw [hseparators]
    exact enterChar_mem_enter hmem (by decide)

end Display

/-! ## Decimal expressions -/

namespace Settings

variable {settings : Settings} {text result : Text}

theorem solve_of_decimal (hbase : settings.base = .decimal) (text : Text) :
    settings.solve text =
      if settings.containsMatrices text then settings.solveMatrices text
      else settings.solveScalar text := by
  rw [solve, hbase]
  rfl

theorem solveMatrices_of_decimal (hbase : settings.base = .decimal)
    (hresult : settings.evaluateMatrices text = .ok result) :
    settings.solveMatrices text = .ok (Display.present
      (Display.localize settings.separators settings.separators.matrix result)) := by
  rw [solveMatrices, hresult, hbase]
  rfl

/-- A text with a bracket is no scalar expression in any locale. -/
theorem solveScalar_eq_error {tag : Text} (hseparators : settings.separators = .ofLocale tag)
    (hmem : '[' ∈ text) : ∃ cause, settings.solveScalar text = .error cause := by
  have hentered : '[' ∈ Display.enter settings.separators text := by
    rw [hseparators]
    exact Display.bracket_mem_enter tag hmem
  obtain ⟨cause, hcause⟩ := Scalar.solve_eq_error hentered (by decide) settings.maxDepth
  refine ⟨cause, ?_⟩
  rw [solveScalar, hcause]
  rfl

/-- An expression with matrices is solved where one of its literals is made of numerals
alone, and fails where there is none, whatever its value is. -/
theorem solve_of_evaluateMatrices (tag : Text) (hbase : settings.base = .decimal)
    (hseparators : settings.separators = .ofLocale tag)
    (hopening : contains Literal.opening text = true)
    (hresult : settings.evaluateMatrices text = .ok result) :
    (HasPlainLiteral settings.separators text →
      settings.solve text = .ok (Display.present
        (Display.localize settings.separators settings.separators.matrix result))) ∧
    (¬HasPlainLiteral settings.separators text →
      ∃ cause, settings.solve text = .error cause) := by
  rw [solve_of_decimal hbase, ← occursIn_iff, containsMatrices]
  constructor
  · intro hshape
    rw [if_pos hshape, solveMatrices_of_decimal hbase hresult]
  · intro hshape
    have hmem : '[' ∈ text := (contains_iff.1 hopening).subset (by decide)
    rw [if_neg hshape]
    exact solveScalar_eq_error hseparators hmem

theorem solve_plain_and_computed_fields :
    let settings : Settings := { separators := .ofLocale "de_DE".toList }
    settings.solve "[[1,5;2]]×2".toList = .ok "[[3;4]]".toList ∧
      ∃ cause, settings.solve "[[1+1;2]]×2".toList = .error cause := by
  have hplain : HasPlainLiteral (.ofLocale "de_DE".toList) "[[1,5;2]]×2".toList :=
    occursIn_iff.1 (by decide)
  have hcomputed : ¬HasPlainLiteral (.ofLocale "de_DE".toList) "[[1+1;2]]×2".toList :=
    fun hplain => absurd (occursIn_iff.2 hplain) (by decide)
  intro settings
  have hfirst : settings.evaluateMatrices "[[1,5;2]]×2".toList = .ok "[[3,4]]".toList := by
    decide +kernel
  have hsecond : settings.evaluateMatrices "[[1+1;2]]×2".toList = .ok "[[4,4]]".toList := by
    decide +kernel
  exact ⟨(solve_of_evaluateMatrices "de_DE".toList rfl rfl (by decide) hfirst).1 hplain,
    (solve_of_evaluateMatrices "de_DE".toList rfl rfl (by decide) hsecond).2 hcomputed⟩

/-- A literal with a sum in a field has a value as an expression with matrices, and none
as the whole of what is typed. -/
theorem solve_computed_field :
    let settings : Settings := {}
    settings.evaluateMatrices "[[1+1,2]]".toList = .ok "[[2,2]]".toList ∧
      settings.solve "[[1+1,2]]".toList = .error (.unexpectedToken ['['] 0) := by
  decide +kernel

end Settings

end MatrixCalculator
