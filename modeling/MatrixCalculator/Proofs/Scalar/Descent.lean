import MatrixCalculator.Scalar.Evaluation

/-!
# Recursive descent

The grammar of scalar expressions as functions, one for each level, that read a phrase at
the head of a list of lexemes.  A level calls the next stronger one, and a group or an
argument starts over, one level of nesting deeper.  Every phrase leaves fewer lexemes than
there were, so that the recursion ends; among the calls on the same lexemes the level goes
down.
-/

namespace MatrixCalculator.Scalar

/-- A phrase that has been read: its value and the lexemes behind it, which are fewer than
there were.  It is closed once a parenthesis that is missing at the end has been forgiven. -/
structure Phrase (bound : Nat) where
  value : Float
  rest : List Lexeme
  closed : Bool
  length_rest_lt : rest.length < bound

namespace Phrase

variable {bound fewer : Nat}

/-- The phrase with one lexeme more in front of it. -/
def behind (last : Phrase bound) (x : Float) : Phrase (bound + 1) :=
  ⟨x, last.rest, last.closed, Nat.lt_succ_of_lt last.length_rest_lt⟩

/-- The phrase with another one behind it. -/
def upTo (first : Phrase bound) (last : Phrase fewer) (hfewer : fewer ≤ first.rest.length)
    (x : Float) : Phrase bound :=
  ⟨x, last.rest, last.closed, by
    have := first.length_rest_lt
    have := last.length_rest_lt
    omega⟩

@[simp]
theorem rest_upTo (first : Phrase bound) (last : Phrase fewer)
    (hfewer : fewer ≤ first.rest.length) (x : Float) :
    (first.upTo last hfewer x).rest = last.rest := rfl

end Phrase

namespace Descent

def sumStep? : Token → Option (Float → Float → Float)
  | .operator .add => some (· + ·)
  | .operator .sub => some (· - ·)
  | _ => none

def productStep? : Token → Option (Float → Float → Float)
  | .operator .mul => some (· * ·)
  | .operator .div => some (· / ·)
  | .operator .mod => some Numeral.remainder
  | _ => none

/-- The postfix signs behind an operand. -/
def suffixes {bound : Nat} (operand : Phrase bound) : Except Fault (Phrase bound) :=
  match hrest : operand.rest with
  | [] => .ok operand
  | lexeme :: rest =>
    have hfewer : rest.length < bound := by
      have := operand.length_rest_lt
      rw [hrest, List.length_cons] at this
      omega
    match lexeme.token with
    | .factorial => do suffixes ⟨← factorialOf operand.value, rest, operand.closed, hfewer⟩
    | .percent => suffixes ⟨operand.value / 100.0, rest, operand.closed, hfewer⟩
    | _ => .ok operand
termination_by operand.rest.length
decreasing_by all_goals simp only [hrest, List.length_cons]; omega

/-- The parenthesis behind a group; a single one may be missing at the end. -/
def expectClose {bound : Nat} (inner : Phrase bound) : Except Fault (Phrase (bound + 1)) :=
  match hrest : inner.rest with
  | [] =>
    if inner.closed then .error .unbalancedParentheses
    else .ok ⟨inner.value, [], true, Nat.succ_pos bound⟩
  | lexeme :: rest =>
    match lexeme.token with
    | .rightParen => .ok ⟨inner.value, rest, inner.closed, by
        have := inner.length_rest_lt
        rw [hrest, List.length_cons] at this
        omega⟩
    | _ => .error (unexpected lexeme)

mutual

/-- An expression at a depth of nesting. -/
def expression (limit depth : Nat) (closed : Bool) (lexemes : List Lexeme) :
    Except Fault (Phrase lexemes.length) :=
  if depth ≤ limit then additive limit depth closed lexemes else .error (.nestingTooDeep limit)
termination_by 7 * lexemes.length + 6

def additive (limit depth : Nat) (closed : Bool) (lexemes : List Lexeme) :
    Except Fault (Phrase lexemes.length) := do
  let first ← multiplicative limit depth closed lexemes
  have := first.length_rest_lt
  sums limit depth first
termination_by 7 * lexemes.length + 5

/-- The products that are added to the one on the left. -/
def sums (limit depth : Nat) {bound : Nat} (left : Phrase bound) : Except Fault (Phrase bound) :=
  match hrest : left.rest with
  | [] => .ok left
  | lexeme :: rest =>
    have hfewer : rest.length < left.rest.length := by simp [hrest]
    match sumStep? lexeme.token with
    | none => .ok left
    | some step => do
      let right ← multiplicative limit depth left.closed rest
      have := right.length_rest_lt
      sums limit depth (left.upTo right (Nat.le_of_lt hfewer) (step left.value right.value))
termination_by 7 * left.rest.length + 4

def multiplicative (limit depth : Nat) (closed : Bool) (lexemes : List Lexeme) :
    Except Fault (Phrase lexemes.length) := do
  let first ← unary limit depth closed lexemes
  have := first.length_rest_lt
  products limit depth first
termination_by 7 * lexemes.length + 4

/-- The factors that the one on the left is multiplied with. -/
def products (limit depth : Nat) {bound : Nat} (left : Phrase bound) :
    Except Fault (Phrase bound) :=
  match hrest : left.rest with
  | [] => .ok left
  | lexeme :: rest =>
    have hlength : left.rest.length = rest.length + 1 := by rw [hrest, List.length_cons]
    match productStep? lexeme.token with
    | some step => do
      let right ← unary limit depth left.closed rest
      have := right.length_rest_lt
      products limit depth (left.upTo right (by omega) (step left.value right.value))
    | none =>
      if lexeme.token.startsFactor then do
        let right ← unary limit depth left.closed (lexeme :: rest)
        have : right.rest.length < rest.length + 1 := right.length_rest_lt
        products limit depth
          (left.upTo right (Nat.le_of_eq hlength.symm) (left.value * right.value))
      else .ok left
termination_by 7 * left.rest.length + 3

def unary (limit depth : Nat) (closed : Bool) (lexemes : List Lexeme) :
    Except Fault (Phrase lexemes.length) :=
  match lexemes with
  | [] => power limit depth closed []
  | lexeme :: rest =>
    match lexeme.token with
    | .operator .sub => do
      let operand ← unary limit depth closed rest
      return operand.behind (-operand.value)
    | .operator .add => do
      let operand ← unary limit depth closed rest
      return operand.behind operand.value
    | _ => power limit depth closed (lexeme :: rest)
termination_by 7 * lexemes.length + 2

def power (limit depth : Nat) (closed : Bool) (lexemes : List Lexeme) :
    Except Fault (Phrase lexemes.length) := do
  let base ← suffixes (← primary limit depth closed lexemes)
  have := base.length_rest_lt
  match hrest : base.rest with
  | [] => return base
  | lexeme :: rest =>
    have hfewer : rest.length < base.rest.length := by simp [hrest]
    match lexeme.token with
    | .operator .pow => do
      let exponent ← unary limit depth base.closed rest
      return base.upTo exponent (Nat.le_of_lt hfewer) (base.value.pow exponent.value)
    | _ => return base
termination_by 7 * lexemes.length + 1

def primary (limit depth : Nat) (closed : Bool) (lexemes : List Lexeme) :
    Except Fault (Phrase lexemes.length) :=
  match lexemes with
  | [] => .error .unexpectedEnd
  | lexeme :: rest =>
    match lexeme.token with
    | .number x => .ok ⟨x, rest, closed, Nat.lt_succ_self _⟩
    | .constant c => .ok ⟨c.value, rest, closed, Nat.lt_succ_self _⟩
    | .leftParen => do expectClose (← expression limit (depth + 1) closed rest)
    | .function f => do
      let operand ← argument limit (depth + 1) closed rest
      return operand.behind (f.apply operand.value)
    | _ => .error (unexpected lexeme)
termination_by 7 * lexemes.length

/-- The argument of a function at a depth of nesting. -/
def argument (limit depth : Nat) (closed : Bool) (lexemes : List Lexeme) :
    Except Fault (Phrase lexemes.length) :=
  if depth ≤ limit then unary limit depth closed lexemes else .error (.nestingTooDeep limit)
termination_by 7 * lexemes.length + 3

end

def valueOf (limit : Nat) (lexemes : List Lexeme) : Except Fault Float := do
  let whole ← expression limit 0 false lexemes
  match whole.rest with
  | [] => .ok whole.value
  | lexeme :: _ => .error (unexpected lexeme)

end Descent

end MatrixCalculator.Scalar
