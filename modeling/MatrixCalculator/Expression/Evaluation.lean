import MatrixCalculator.Chain.Reduction
import MatrixCalculator.Display
import MatrixCalculator.Expression.Group
import MatrixCalculator.Expression.Literals
import MatrixCalculator.Expression.Spelling
import MatrixCalculator.Literal.Shape
import MatrixCalculator.Operator.Application
import MatrixCalculator.Scalar.Evaluation

/-!
# Expressions with matrices

An expression is simplified pass by pass until only operands and operators are
left, and the chain of those is reduced.  Groups and the fields of literals are
expressions of their own one level deeper; they come back as canonical text.
-/

namespace MatrixCalculator.Expression

/-- The operand a text denotes: a literal, or a scalar expression. -/
def operand (limit : Nat) (evaluate : Text → Except Fault Text) (text : Text) :
    Except Fault Operand :=
  if Text.startsWith Literal.opening text then
    .matrix <$> Literal.read Separators.canonical evaluate text
  else .scalar <$> Scalar.evaluate limit text

/-- An expression without groups, marks and functions: a single operand stays as it
is, and a chain becomes the text of its value. -/
def reduceText (limit : Nat) (evaluate : Text → Except Fault Text) (text : Text) :
    Except Fault Text := do
  let chain := Chain.split text
  if chain.isAtom then return text
  else
    let operands ← chain.operands.mapM (operand limit evaluate)
    let value ← Chain.reduce Operator.apply ⟨operands, chain.operators⟩
    return value.write

/-- All passes over an expression, where `evaluate` is for the expressions one
level deeper. -/
def passes (limit : Nat) (evaluate : Text → Except Fault Text) (text : Text) :
    Except Fault Text := do
  let text ← canonicalizeLiterals Separators.canonical evaluate text
  let text ← spellFactorials false (spellPercents none text)
  let text ← resolveGroups evaluate (← balance text)
  let text ← Mark.transpose.applyAll evaluate text
  let text ← Mark.inverse.applyAll evaluate text
  let text ← Application.replaceAll evaluate text
  reduceText limit evaluate (spellConstants none text)

/-- The canonical text of an expression that may nest as many levels, itself
included. -/
def resolve (limit : Nat) : (levels : Nat) → Text → Except Fault Text
  | 0, _ => throw (.nestingTooDeep limit)
  | levels + 1, text => passes limit (resolve limit levels) text

/-- The canonical text of the value of an expression as typed.  The literals are
read once with the separators of the locale; all passes see canonical ones. -/
def evaluate (limit : Nat) (separators : Separators) (text : Text) : Except Fault Text := do
  let entered := Display.enter separators text
  let canonical ← canonicalizeLiterals separators (resolve limit limit) entered
  let resolved ← resolve limit (limit + 1) canonical
  let value ← operand limit (resolve limit limit) resolved
  if Text.contains Numeral.notANumberWord value.write then throw .notANumber
  else return value.write

end MatrixCalculator.Expression
