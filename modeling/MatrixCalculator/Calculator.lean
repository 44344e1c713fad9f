import MatrixCalculator.Base.Grouping
import MatrixCalculator.Base.Input
import MatrixCalculator.Base.Output
import MatrixCalculator.Expression.Evaluation

/-!
# Displayed expressions

Solving an expression as it is typed: its numerals are read in the configured
base, it is evaluated as a scalar expression or as one with matrices, and the
result is written in the same base and with the characters of the display.
-/

namespace MatrixCalculator

/-- How many levels of groups and fields may be nested unless it is said. -/
def defaultMaxDepth : Nat := 64

/-- What changes how expressions are read and results are written. -/
structure Settings where
  base : Base := .decimal
  separators : Separators := .canonical
  maxDepth : Nat := defaultMaxDepth
  groupDigits : Bool := false
  deriving DecidableEq, Repr

namespace Settings

/-- Whether an expression may be evaluated at a depth; the whole of what is typed
is at depth zero. -/
def allowsDepth (settings : Settings) (depth : Nat) : Bool := decide (depth ≤ settings.maxDepth)

def containsMatrices (settings : Settings) (text : Text) : Bool :=
  Literal.occursIn settings.separators text

def evaluateMatrices (settings : Settings) (text : Text) : Except Fault Text :=
  Expression.evaluate settings.maxDepth settings.separators text

def solveMatrices (settings : Settings) (text : Text) : Except Fault Text := do
  let result := settings.base.ofDecimal (← settings.evaluateMatrices text)
  return Display.present (Display.localize settings.separators settings.separators.matrix result)

/-- The displayed value of a scalar expression, in groups where they are asked
for. -/
def solveScalar (settings : Settings) (text : Text) : Except Fault Text := do
  let entered := Display.enter settings.separators text
  let result := settings.base.ofDecimal (← Scalar.solve settings.maxDepth entered)
  let grouped := if settings.groupDigits then settings.base.group .canonical result else result
  return Display.present (Display.localize settings.separators settings.separators.grouping grouped)

def solve (settings : Settings) (text : Text) : Except Fault Text := do
  let decimal ← settings.base.toDecimal settings.separators.decimalPoint text
  if settings.containsMatrices decimal then settings.solveMatrices decimal
  else settings.solveScalar decimal

end Settings

end MatrixCalculator
