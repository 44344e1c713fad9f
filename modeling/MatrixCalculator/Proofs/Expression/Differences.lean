import MatrixCalculator.Proofs.Expression.AppliedGroups
import MatrixCalculator.Proofs.Expression.NestedResolution
import MatrixCalculator.Proofs.Scalar.Scanning

/-!
# Operators between a group and a literal

Whether a hyphen is an operator depends on the character in front of it, and a group has
become text by then.  So behind a group a hyphen is an operator if the text of the group
ends with a digit.  Behind the word for an infinite number and behind a mark it is not: the
literal stays a part of an operand that no scalar expression can be.
-/

namespace MatrixCalculator

open Chain Expression Numeral Outcome Scalar Text

inductive ClosingMark where
  | none
  | factorial
  | percent

def ClosingMark.text : ClosingMark → Text
  | none => []
  | factorial => ['!']
  | percent => ['%']

/-! ## Text behind an operand -/

namespace BeginsBehindOperand

variable {text tail : Text}

end BeginsBehindOperand

namespace Expression

variable {limit : Nat} {text rest inner value mark after : Text} {c : Char}
  {evaluate : Text → Except Fault Text}

variable {m : Matrix Float} {literal : Text} {a : Float} {op : Operator}

end Expression

end MatrixCalculator
