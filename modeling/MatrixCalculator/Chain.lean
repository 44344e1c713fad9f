import MatrixCalculator.Operator.Basic

/-!
# Operator chains

A flat expression is a chain of operands with operators between them.  Splitting
a text finds the operators; whether a hyphen is one depends on the character in
front of it.
-/

namespace MatrixCalculator

structure Chain (α : Type) where
  operands : List α
  operators : List Operator

namespace Chain

/-- Whether a text is a single operand. -/
def isAtom {α : Type} (chain : Chain α) : Bool := chain.operators.isEmpty

/-- A chain with one more character at the head of its first operand. -/
def lengthen (c : Char) : Chain Text → Chain Text
  | ⟨first :: operands, operators⟩ => ⟨(c :: first) :: operands, operators⟩
  | ⟨[], operators⟩ => ⟨[[c]], operators⟩

/-- A chain behind an operator and an operand that is empty so far. -/
def link (op : Operator) (chain : Chain Text) : Chain Text :=
  ⟨[] :: chain.operands, op :: chain.operators⟩

/-- Whether a hyphen behind a character is an operator and not a sign. -/
def endsOperand (previous : Option Char) : Bool :=
  previous.any fun c => c.isDigit || c == ']'

/-- The operator a character stands for behind another one. -/
def operatorAt? (previous : Option Char) (c : Char) : Option Operator :=
  if c = '-' ∧ endsOperand previous then some .sub else Operator.ofChar? c

def splitAfter (previous : Option Char) : Text → Chain Text
  | [] => ⟨[[]], []⟩
  | 'm' :: 'o' :: 'd' :: text => link .mod (splitAfter (some 'd') text)
  | c :: text =>
    match operatorAt? previous c with
    | some op => link op (splitAfter (some c) text)
    | none => lengthen c (splitAfter (some c) text)

def split (text : Text) : Chain Text := splitAfter none text

end Chain

end MatrixCalculator
