import MatrixCalculator.Literal.Basic
import MatrixCalculator.Matrix.Decomposition
import MatrixCalculator.Operand
import MatrixCalculator.Numeral.Extent

/-!
# Literals in an expression

The passes that replace a literal by another one: reading the fields of every
literal, applying the marks behind a literal, and applying functions in front of
a literal or a numeral.
-/

namespace MatrixCalculator.Expression

/-- Every literal in canonical form, with its fields evaluated. -/
def canonicalizeLiterals (separators : Separators) (evaluate : Text → Except Fault Text)
    (text : Text) : Except Fault Text :=
  match hopen : Text.cut? Literal.opening text with
  | none => return text
  | some (before, inside) =>
    match hclose : Text.cut? Literal.closing inside with
    | none => throw (.malformedLiteral (Literal.opening ++ inside))
    | some (body, rest) => do
      have : rest.length < text.length :=
        Nat.lt_trans (Text.length_lt_of_cut? (by decide) hclose)
          (Text.length_lt_of_cut? (by decide) hopen)
      let m ← Literal.read separators evaluate (Literal.opening ++ body ++ Literal.closing)
      return before ++ Literal.write m ++ (← canonicalizeLiterals separators evaluate rest)
termination_by text.length

/-- An operator written behind a matrix. -/
structure Mark where
  text : Text
  name : Text
  apply : Matrix Float → Except Fault (Matrix Float)

namespace Mark

def transpose : Mark := ⟨['^', 'T'], "transpose".toList, fun m => .ok m.transpose⟩

/-- The inverse, whose text begins with an invisible character so that it is not
the power with exponent minus one. -/
def inverse : Mark := ⟨['\ufeff', '^', '-', '1'], "inverse".toList, Matrix.pseudoInverse⟩

/-- The literal at the end of a text, and what precedes it. -/
def literalBefore? (text : Text) : Option (Text × Text) := do
  let _ ← Text.before? Literal.closing text
  let (before, inside) ← Text.cutLast? Literal.opening text
  return (before, Literal.opening ++ inside)

/-- The marks of a text applied from the left, at most `count` of them. -/
def applyFirst (mark : Mark) (evaluate : Text → Except Fault Text) :
    (count : Nat) → Text → Except Fault Text
  | 0, text => return text
  | count + 1, text =>
    match Text.cut? mark.text text with
    | none => return text
    | some (head, tail) =>
      match literalBefore? head with
      | none => throw (.danglingPostfix mark.name)
      | some (before, literal) => do
        let m ← mark.apply (← Literal.read Separators.canonical evaluate literal)
        applyFirst mark evaluate count (before ++ Literal.write m ++ tail)

/-- Every mark of a text applied to the literal in front of it.  There are not more
marks than characters. -/
def applyAll (mark : Mark) (evaluate : Text → Except Fault Text) (text : Text) :
    Except Fault Text :=
  mark.applyFirst evaluate text.length text

end Mark

/-- A function name with its argument, and the text around both. -/
structure Application where
  before : Text
  function : NamedFunction
  argument : Text
  after : Text

namespace Application

/-- The application a text starts with: a function name and directly behind it a
literal or a numeral with an optional hyphen. -/
def atStart? (text : Text) : Option Application := do
  let (spelling, f) ← NamedFunction.atStart? text
  let rest := text.drop spelling.length
  if Text.startsWith Literal.opening rest then
    let (literal, after) ← Literal.atStart? rest
    return ⟨[], f, literal, after⟩
  else
    let extent := Numeral.signedExtent rest
    if extent = 0 then none else return ⟨[], f, rest.take extent, rest.drop extent⟩

def first? : Text → Option Application
  | [] => none
  | c :: text =>
    match atStart? (c :: text) with
    | some application => some application
    | none =>
      (first? text).map fun application =>
        { application with before := c :: application.before }

def operand (evaluate : Text → Except Fault Text) (argument : Text) : Except Fault Operand :=
  if Text.startsWith Literal.opening argument then
    .matrix <$> Literal.read Separators.canonical evaluate argument
  else
    match Numeral.read? argument with
    | some x => .ok (.scalar x)
    | none => .error (.fieldNotNumeric argument)

/-- Whether something directly in front of a function is a factor. -/
def followsFactor (before : Text) : Bool :=
  before.getLast?.any fun c => c.isDigit || c == ']'

def replace (evaluate : Text → Except Fault Text) (a : Application) : Except Fault Text := do
  let value ← Operand.apply a.function (← operand evaluate a.argument)
  let text := value.write
  if Text.contains Numeral.notANumberWord text then throw .notANumber
  return a.before ++ (if followsFactor a.before then [Symbol.times] else []) ++ text ++ a.after

/-- The applications of a text replaced from the left, at most `count` of them. -/
def replaceFirst (evaluate : Text → Except Fault Text) :
    (count : Nat) → Text → Except Fault Text
  | 0, text => return text
  | count + 1, text =>
    match first? text with
    | none => return text
    | some application => do replaceFirst evaluate count (← application.replace evaluate)

/-- Every application replaced by its value.  Values hold no function names, so
there are not more applications than characters. -/
def replaceAll (evaluate : Text → Except Fault Text) (text : Text) : Except Fault Text :=
  replaceFirst evaluate text.length text

end Application

end MatrixCalculator.Expression
