import MatrixCalculator.Factorial
import MatrixCalculator.Scalar.Token

/-!
# Scalar expressions

The grammar, weakest operators first:

    additive        multiplicative (("+" | "-") multiplicative)*
    multiplicative  unary (("×" | "÷" | "mod")? unary)*
    unary           ("+" | "-") unary | power
    power           postfix ("^" unary)?
    postfix         primary ("!" | "%")*
    primary         numeral | constant | "(" additive ")" | function unary

A factor without a sign is only read where a parenthesis, a function or a
constant starts it.  An expression is evaluated while it is read, lexeme by
lexeme: what still waits for a value on its right is pending, and a value is
handed to it as soon as the next lexeme cannot belong to the value.  So the
fault that is reported is the first one from the left.  One missing parenthesis
at the end is forgiven.
-/

namespace MatrixCalculator.Scalar

/-- A part of an expression that waits for a value. -/
inductive Pending where
  | binary (left : Float) (op : Operator)
  | negation
  | argument (f : NamedFunction)
  | group

namespace Pending

def complete : Pending → Float → Float
  | binary left op, x => op.onScalars left x
  | negation, x => -x
  | argument f, x => f.apply x
  | group, x => x

/-- Whether a value in front of an operator belongs to what is pending and not to
the operator. -/
def isClosedBy : Precedence → Pending → Bool
  | .power, _ => false
  | .multiplicative, binary _ op => op.precedence != .additive
  | .additive, binary _ _ => true
  | _, negation | _, argument _ => true
  | _, group => false

def isNested : Pending → Bool
  | argument _ | group => true
  | _ => false

def isGroup : Pending → Bool
  | group => true
  | _ => false

end Pending

/-- A value handed to what is pending, as far as it belongs there in front of an
operator of a precedence. -/
def close (precedence : Precedence) : (x : Float) → List Pending → Float × List Pending
  | x, [] => (x, [])
  | x, first :: pending =>
    if first.isClosedBy precedence then close precedence (first.complete x) pending
    else (x, first :: pending)

/-- What has been read of an expression: the parts that are pending, the innermost
first, and the value in front of the next lexeme unless an operand has to follow. -/
structure Progress where
  value : Option Float
  pending : List Pending

namespace Progress

def start : Progress := ⟨none, []⟩

def awaiting (pending : List Pending) : Progress := ⟨none, pending⟩

def having (x : Float) (pending : List Pending) : Progress := ⟨some x, pending⟩

end Progress

def unexpected (lexeme : Lexeme) : Fault :=
  .unexpectedToken (lexeme.text.take 1) lexeme.offset

/-- The factorial of a value, which has to be a whole number. -/
def factorialOf (x : Float) : Except Fault Float :=
  if x < 0 ∨ Numeral.isWhole x = false then .error .notANumber
  else Factorial.ofNat (Numeral.toWord x)

/-- A group or an argument opened inside what is pending, at most `limit` of them
in each other. -/
def nest (limit : Nat) (inner : Pending) (pending : List Pending) : Except Fault Progress :=
  if pending.countP Pending.isNested < limit then .ok (.awaiting (inner :: pending))
  else .error (.nestingTooDeep limit)

/-- A lexeme where an operand has to follow. -/
def readOperand (limit : Nat) (pending : List Pending) (lexeme : Lexeme) :
    Except Fault Progress :=
  match lexeme.token with
  | .number x => .ok (.having x pending)
  | .constant c => .ok (.having c.value pending)
  | .operator .add => .ok (.awaiting pending)
  | .operator .sub => .ok (.awaiting (.negation :: pending))
  | .leftParen => nest limit .group pending
  | .function f => nest limit (.argument f) pending
  | _ => .error (unexpected lexeme)

def readOperator (x : Float) (pending : List Pending) (op : Operator) : List Pending :=
  let (left, pending) := close op.precedence x pending
  .binary left op :: pending

/-- A lexeme behind a value. -/
def readBehind (limit : Nat) (x : Float) (pending : List Pending) (lexeme : Lexeme) :
    Except Fault Progress :=
  match lexeme.token with
  | .factorial => return .having (← factorialOf x) pending
  | .percent => .ok (.having (x / 100.0) pending)
  | .operator op => .ok (.awaiting (readOperator x pending op))
  | .rightParen =>
    match close .additive x pending with
    | (x, .group :: pending) => .ok (.having x pending)
    | _ => .error (unexpected lexeme)
  | token =>
    if token.startsFactor then readOperand limit (readOperator x pending .mul) lexeme
    else .error (unexpected lexeme)

def readLexeme (limit : Nat) (progress : Progress) (lexeme : Lexeme) : Except Fault Progress :=
  match progress.value with
  | none => readOperand limit progress.pending lexeme
  | some x => readBehind limit x progress.pending lexeme

/-- The value of the whole, with at most one group left open. -/
def finish (progress : Progress) : Except Fault Float :=
  match progress.value with
  | none => .error .unexpectedEnd
  | some x =>
    if progress.pending.countP Pending.isGroup ≤ 1 then
      .ok (progress.pending.foldl (fun x pending => pending.complete x) x)
    else .error .unbalancedParentheses

def valueOf (limit : Nat) (lexemes : List Lexeme) : Except Fault Float := do
  finish (← lexemes.foldlM (readLexeme limit) .start)

/-- The value of a scalar expression, which has to be a number. -/
def evaluate (limit : Nat) (text : Text) : Except Fault Float := do
  let value ← valueOf limit (← lexemes text)
  if value.isNaN then throw .notANumber else return value

def solve (limit : Nat) (text : Text) : Except Fault Text := Numeral.write <$> evaluate limit text

end MatrixCalculator.Scalar
