import MatrixCalculator.Symbol
import MatrixCalculator.Numeral.Double

/-!
# Binary operators

The operators between operands, how strongly they bind, and what they do to
numbers.
-/

namespace MatrixCalculator

inductive Operator where
  | pow
  | mul
  | div
  | mod
  | add
  | sub
  deriving DecidableEq, Repr

/-- How strongly an operator binds, strongest first. -/
inductive Precedence where
  | power
  | multiplicative
  | additive
  deriving DecidableEq, Repr

namespace Operator

def precedence : Operator → Precedence
  | pow => .power
  | mul | div | mod => .multiplicative
  | add | sub => .additive

theorem precedence_eq_additive_iff {op : Operator} :
    op.precedence = .additive ↔ op = add ∨ op = sub := by
  cases op <;> decide

theorem precedence_eq_multiplicative_iff {op : Operator} :
    op.precedence = .multiplicative ↔ op = mul ∨ op = div ∨ op = mod := by
  cases op <;> decide

def name : Operator → Text
  | pow => "exponentiation".toList
  | mul => "multiplication".toList
  | div => "division".toList
  | mod => "modulo".toList
  | add => "addition".toList
  | sub => "subtraction".toList

def symbol : Operator → Text
  | pow => ['^']
  | mul => [Symbol.times]
  | div => [Symbol.divide]
  | mod => Symbol.modulo
  | add => ['+']
  | sub => ['-']

/-- The operator that a character always stands for.  A hyphen is not among them:
it may be a sign. -/
def ofChar? (c : Char) : Option Operator :=
  if c = '^' then some pow
  else if c = Symbol.times then some mul
  else if c = Symbol.divide then some div
  else if c = '+' then some add
  else none

def onScalars : Operator → Float → Float → Float
  | pow => Float.pow
  | mul => (· * ·)
  | div => (· / ·)
  | mod => Numeral.remainder
  | add => (· + ·)
  | sub => (· - ·)

end Operator

end MatrixCalculator
