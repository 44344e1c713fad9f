import MatrixCalculator.Fault
import MatrixCalculator.NamedFunction
import MatrixCalculator.Operator.Basic
import MatrixCalculator.Text.Blank

/-!
# Tokens of scalar expressions

A scalar expression is read as numerals, words and single characters, with
blanks allowed between them.  A lexeme keeps the text of its token and where it
starts, so a fault can name what was found; the lexemes of a text are its
characters in order, less the blanks between them.
-/

namespace MatrixCalculator.Scalar

inductive Constant where
  | e
  | pi
  | infinity
  deriving DecidableEq, Repr

def Constant.value : Constant → Float
  | e => 2.718281828459045
  | pi => NamedFunction.pi
  | infinity => Numeral.infinity

inductive Token where
  | number (x : Float)
  | operator (op : Operator)
  | percent
  | factorial
  | leftParen
  | rightParen
  | function (f : NamedFunction)
  | constant (c : Constant)

/-- Whether a token can start an operand that is multiplied without a sign, as
in `2π` and `3(4)`. -/
def Token.startsFactor : Token → Bool
  | leftParen | function _ | constant _ => true
  | _ => false

theorem Token.startsFactor_iff {token : Token} :
    token.startsFactor = true ↔
      token = leftParen ∨ (∃ f, token = function f) ∨ ∃ c, token = constant c := by
  cases token <;> simp [startsFactor]

/-- A token with its byte offset and its text. -/
structure Lexeme where
  token : Token
  offset : Nat
  text : Text

/-- How many characters a numeral has behind the mark of its exponent, with an
optional sign. -/
def exponentLength : Text → Nat
  | [] => 0
  | mark :: tail =>
    if mark = 'e' ∨ mark = 'E' then
      match tail with
      | '-' :: digits | '+' :: digits => behindMark 2 digits
      | digits => behindMark 1 digits
    else 0
where
  /-- The digits behind a mark of some length, or nothing where there are none. -/
  behindMark (mark : Nat) (digits : Text) : Nat :=
    let count := (digits.takeWhile Char.isDigit).length
    if count = 0 then 0 else mark + count

/-- The length of the digits and of the point at the head of a text, and how many
of them are digits. -/
def mantissaLength (text : Text) : Nat × Nat :=
  let whole := (text.takeWhile Char.isDigit).length
  match text.drop whole with
  | '.' :: tail =>
    let fraction := (tail.takeWhile Char.isDigit).length
    (whole + 1 + fraction, whole + fraction)
  | _ => (whole, whole)

/-- The token of a numeral that a text starts with, and the length of its text. -/
def scanNumeral (offset : Nat) (text : Text) : Except Fault (Token × Nat) :=
  let (mantissa, digits) := mantissaLength text
  if digits = 0 then .error (.unexpectedToken ['.'] offset)
  else
    let length := mantissa + exponentLength (text.drop mantissa)
    match Numeral.readDecimal? (text.take length) with
    | some numeral => .ok (.number numeral.toDouble, length)
    | none => .error (.unexpectedToken (text.take length) offset)

def wordToken (word : Text) : Except Fault Token :=
  match NamedFunction.ofName? word with
  | some f => .ok (.function f)
  | none =>
    if word = ['e'] then .ok (.constant .e)
    else if word = Symbol.modulo then .ok (.operator .mod)
    else if word = Numeral.infinityWord then .ok (.constant .infinity)
    else .error (.unknownSymbol word)

/-- The token of a character that is neither a letter nor part of a numeral. -/
def symbolToken? (c : Char) : Option Token :=
  if c = '+' then some (.operator .add)
  else if c = '-' ∨ c = Symbol.minus then some (.operator .sub)
  else if c = '*' ∨ c = Symbol.times then some (.operator .mul)
  else if c = '/' ∨ c = Symbol.divide then some (.operator .div)
  else if c = '^' then some (.operator .pow)
  else if c = '%' then some .percent
  else if c = '!' then some .factorial
  else if c = '(' then some .leftParen
  else if c = ')' then some .rightParen
  else if c = Symbol.pi then some (.constant .pi)
  else if c = Symbol.infinity then some (.constant .infinity)
  else (NamedFunction.ofName? [c]).map .function

/-- The token a text starts with, and the length of its text. -/
def scanToken (offset : Nat) (c : Char) (text : Text) : Except Fault (Token × Nat) :=
  if c.isDigit ∨ c = '.' then scanNumeral offset (c :: text)
  else if c.isAlpha then
    let word := c :: text.takeWhile Char.isAlpha
    match wordToken word with
    | .ok token => .ok (token, word.length)
    | .error fault => .error fault
  else
    match symbolToken? c with
    | some token => .ok (token, 1)
    | none => .error (.unexpectedToken [c] offset)

def lexemesFrom (offset : Nat) : Text → Except Fault (List Lexeme)
  | [] => .ok []
  | c :: text =>
    if Text.isBlank c then lexemesFrom (offset + c.utf8Size) text
    else do
      let (token, length) ← scanToken offset c text
      let lexeme := (c :: text).take length
      let rest ← lexemesFrom (offset + Text.byteLength lexeme) (text.drop (length - 1))
      return ⟨token, offset, lexeme⟩ :: rest
termination_by text => text.length

def lexemes (text : Text) : Except Fault (List Lexeme) := lexemesFrom 0 text

end MatrixCalculator.Scalar
