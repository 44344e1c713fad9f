import MatrixCalculator.Operator.Application
import MatrixCalculator.Proofs.Outcome
import Mathlib.Tactic

/-!
# Operators

What an operator can answer.  The faults of operators are about the operands
alone, so no operator blames the chain in which it stands.
-/

namespace MatrixCalculator

open Outcome

/-- Whether a fault is one of operands that do not suit an operator. -/
def Fault.IsOperandFault : Fault → Prop
  | .notSquare .. | .dimensionMismatch .. | .unsupportedOperands .. | .notANumber
  | .decompositionFailed _ => True
  | _ => False

namespace Matrix

variable {m : Matrix Float} {cause : Fault}

theorem isOperandFault_of_requireFinite (herror : m.requireFinite = .error cause) :
    cause.IsOperandFault := by
  rw [requireFinite] at herror
  split at herror
  · cases herror
  · cases herror
    trivial

variable [Routines]

theorem isOperandFault_of_singular (herror : m.singular = .error cause) :
    cause.IsOperandFault := by
  rw [singular] at herror
  split at herror
  · cases herror
  · cases herror
    trivial

theorem isOperandFault_of_pseudoInverse (herror : m.pseudoInverse = .error cause) :
    cause.IsOperandFault := by
  rw [pseudoInverse, bind_eq_error_iff] at herror
  rcases herror with herror | ⟨-, -, herror⟩
  · exact isOperandFault_of_requireFinite herror
  · rw [bind_eq_error_iff] at herror
    rcases herror with herror | ⟨s, -, herror⟩
    · exact isOperandFault_of_singular herror
    · cases herror

theorem isOperandFault_of_singularPower {exponent : Float}
    (herror : m.singularPower exponent = .error cause) : cause.IsOperandFault := by
  rw [singularPower, bind_eq_error_iff] at herror
  rcases herror with herror | ⟨-, -, herror⟩
  · exact isOperandFault_of_requireFinite herror
  · rw [bind_eq_error_iff] at herror
    rcases herror with herror | ⟨s, -, herror⟩
    · exact isOperandFault_of_singular herror
    · cases herror

theorem isOperandFault_of_power {exponent : Float}
    (herror : m.power exponent = .error cause) : cause.IsOperandFault := by
  rw [power, bind_eq_error_iff] at herror
  rcases herror with herror | ⟨side, -, herror⟩
  · rw [requireSquare] at herror
    split at herror
    · cases herror
    · cases herror
      trivial
  · by_cases hfinite : exponent.isFinite = false
    · rw [if_pos hfinite] at herror
      cases herror
      trivial
    · rw [if_neg hfinite] at herror
      by_cases hwhole : Numeral.isWhole exponent = false
      · rw [if_pos hwhole] at herror
        exact isOperandFault_of_singularPower herror
      · rw [if_neg hwhole] at herror
        by_cases hnegative : exponent < 0
        · simp only [if_pos hnegative, bind_eq_error_iff] at herror
          rcases herror with herror | ⟨base, -, herror⟩
          · exact isOperandFault_of_pseudoInverse herror
          · cases herror
        · simp only [if_neg hnegative] at herror
          cases herror

end Matrix

namespace Operator

variable [Matrix.Routines] {op : Operator} {cause : Fault}

theorem isOperandFault_of_onMatrixScalar {m : Matrix Float} {x : Float}
    (herror : op.onMatrixScalar m x = .error cause) : cause.IsOperandFault := by
  cases op with
  | pow => exact Matrix.isOperandFault_of_power (map_eq_error_iff.1 herror)
  | mod =>
    cases herror
    trivial
  | mul | div | add | sub => cases herror

theorem isOperandFault_of_onScalarMatrix {x : Float} {m : Matrix Float}
    (herror : op.onScalarMatrix x m = .error cause) : cause.IsOperandFault := by
  cases op with
  | div =>
    rw [onScalarMatrix, bind_eq_error_iff] at herror
    rcases herror with herror | ⟨inverse, -, herror⟩
    · exact Matrix.isOperandFault_of_pseudoInverse herror
    · cases herror
  | mod =>
    cases herror
    trivial
  | pow | mul | add | sub =>
    rw [onScalarMatrix] at herror
    · exact isOperandFault_of_onMatrixScalar herror
    all_goals simp

theorem isOperandFault_of_onMatrices {a b : Matrix Float}
    (herror : op.onMatrices a b = .error cause) : cause.IsOperandFault := by
  have hmismatch : (op.mismatch a b).IsOperandFault := trivial
  cases op with
  | pow | mod =>
    cases herror
    trivial
  | div =>
    rw [onMatrices] at herror
    split at herror
    · rw [bind_eq_error_iff] at herror
      rcases herror with herror | ⟨inverse, -, herror⟩
      · exact Matrix.isOperandFault_of_pseudoInverse herror
      · cases herror
    · cases herror
      exact hmismatch
  | mul | add | sub =>
    rw [onMatrices] at herror
    split at herror
    · cases herror
    · cases herror
      exact hmismatch

/-- An operator only fails because of its operands. -/
theorem isOperandFault_of_apply {x y : Operand} (herror : op.apply x y = .error cause) :
    cause.IsOperandFault := by
  cases x with
  | scalar x =>
    cases y with
    | scalar y => cases herror
    | matrix m => exact isOperandFault_of_onScalarMatrix herror
  | matrix m =>
    cases y with
    | scalar x => exact isOperandFault_of_onMatrixScalar herror
    | matrix b => exact isOperandFault_of_onMatrices herror

end Operator

end MatrixCalculator
