import MatrixCalculator.Fault
import MatrixCalculator.Matrix.Basic
import MatrixCalculator.Separators

/-!
# Matrix literals

A matrix is written row by row, each row in brackets and all of them in another
pair: `[[1,2][3,4]]`.  Literals do not nest, so one ends at the first pair of
closing brackets.  A field may be an expression; reading a literal hands every
field to a function that turns it into the text of a number.
-/

namespace MatrixCalculator.Literal

def opening : Text := ['[', '[']

def closing : Text := [']', ']']

def rowBreak : Text := [']', '[']

/-- The literal a text starts with, and what follows it. -/
def atStart? (text : Text) : Option (Text × Text) := do
  let inside ← Text.after? opening text
  let (body, rest) ← Text.cut? closing inside
  return (opening ++ body ++ closing, rest)

/-- A text without its first bytes, unless that would split a character. -/
def dropBytes? : (count : Nat) → Text → Option Text
  | 0, text => some text
  | _ + 1, [] => none
  | count + 1, c :: text =>
    if c.utf8Size ≤ count + 1 then dropBytes? (count + 1 - c.utf8Size) text else none
termination_by _ text => text

/-- The byte offset behind the literal that starts at an offset. -/
def endOffset? (text : Text) (start : Nat) : Option Nat := do
  let inside ← dropBytes? (start + Text.byteLength opening) text
  let (body, _) ← Text.cut? closing inside
  return start + Text.byteLength opening + Text.byteLength body + Text.byteLength closing

section Reading

variable {M : Type → Type} [Monad M] [MonadExceptOf Fault M]

def readFields (resolve : Text → M Text) : List Text → M (List Float)
  | [] => return []
  | field :: fields => do
    if field = [] then throw .emptyField
    match Numeral.read? (← resolve field) with
    | none => throw (.fieldNotNumeric field)
    | some x => return x :: (← readFields resolve fields)

/-- The numbers of rows that all have to have as many fields. -/
def readRows (resolve : Text → M Text) (width : Nat) : List (List Text) → M (List (List Float))
  | [] => return []
  | fields :: rows => do
    if fields.length ≠ width then throw (.raggedRows width fields.length)
    let row ← readFields resolve fields
    return row :: (← readRows resolve width rows)

/-- The rows of fields of the text between the outer brackets. -/
def fieldsOf (separators : Separators) (interior : Text) : List (List Text) :=
  (Text.splitOn rowBreak interior).map (Text.splitOn [separators.matrix])

def interior? (text : Text) : Option Text := do Text.before? closing (← Text.after? opening text)

/-- The matrix of a literal.  Faults are found in reading order, and the fields
before the first fault have been resolved by then. -/
def read (separators : Separators) (resolve : Text → M Text) (text : Text) : M (Matrix Float) :=
  match interior? text with
  | none => throw (.malformedLiteral text)
  | some interior => do
    let rows := fieldsOf separators interior
    let width := (rows.headD []).length
    return Matrix.ofRows width (← readRows resolve width rows)

end Reading

def writeRow (row : List Float) : Text :=
  ['['] ++ [','].intercalate (row.map Numeral.write) ++ [']']

def write (m : Matrix Float) : Text := ['['] ++ m.rows.flatMap writeRow ++ [']']

end MatrixCalculator.Literal
