import MatrixCalculator.Numeral.Layout

/-!
# Faults

Why an expression has no result.  Each constructor is one cause, with what a
reader needs to find it; the wording of all of them is `Fault.message`.
-/

namespace MatrixCalculator

inductive Fault where
  | malformedLiteral (literal : Text)
  | emptyField
  | raggedRows (expected got : Nat)
  | fieldNotNumeric (field : Text)
  | unbalancedParentheses
  | emptyParentheses
  | operandCount (operators operands : Nat)
  | unreduced (survivors : Nat)
  | unexpectedToken (found : Text) (offset : Nat)
  | unexpectedEnd
  | unknownSymbol (name : Text)
  | danglingPostfix (operator : Text)
  | nestingTooDeep (limit : Nat)
  | notSquare (operation : Text) (height width : Nat)
  | dimensionMismatch (operation : Text) (leftHeight leftWidth rightHeight rightWidth : Nat)
  | unsupportedOperands (operation operands : Text)
  | notDiagonalizable
  | decompositionFailed (reason : Text)
  | notANumber
  | factorialOverflow (operand : Text)
  | invalidDigit (digit : Char) (radix : Nat)
  deriving DecidableEq, Repr

namespace Fault

open Numeral (digitsOf)

/-- Text between a pair of grave accents. -/
def quoted (text : Text) : Text := ['`'] ++ text ++ ['`']

/-- Height and width of a matrix, as in `2x3`. -/
def shape (height width : Nat) : Text := digitsOf height ++ ['x'] ++ digitsOf width

def message : Fault → Text
  | malformedLiteral literal => "malformed matrix literal: ".toList ++ literal
  | emptyField => "matrix literal has an empty field".toList
  | raggedRows expected got =>
    "matrix rows have different lengths (".toList ++ digitsOf expected ++ " and ".toList ++
      digitsOf got ++ ")".toList
  | fieldNotNumeric field => "matrix field is not a number: ".toList ++ field
  | unbalancedParentheses => "unbalanced parentheses".toList
  | emptyParentheses => "empty parentheses".toList
  | operandCount operators operands =>
    "operator count does not match operand count (".toList ++ digitsOf operators ++
      " operators, ".toList ++ digitsOf operands ++ " operands)".toList
  | unreduced survivors => digitsOf survivors ++ " operands left after reduction".toList
  | unexpectedToken found offset =>
    "unexpected ".toList ++ quoted found ++ " at offset ".toList ++ digitsOf offset
  | unexpectedEnd => "unexpected end of expression".toList
  | unknownSymbol name => "unknown symbol ".toList ++ quoted name
  | danglingPostfix operator => quoted operator ++ " must follow a matrix".toList
  | nestingTooDeep limit => "nesting deeper than ".toList ++ digitsOf limit ++ " levels".toList
  | notSquare operation height width =>
    operation ++ " requires a square matrix, got ".toList ++ shape height width
  | dimensionMismatch operation leftHeight leftWidth rightHeight rightWidth =>
    operation ++ " of ".toList ++ shape leftHeight leftWidth ++ " and ".toList ++
      shape rightHeight rightWidth ++ " matrices".toList
  | unsupportedOperands operation operands =>
    operation ++ " is not defined for ".toList ++ operands
  | notDiagonalizable => "matrix cannot be diagonalised over the reals".toList
  | decompositionFailed reason => "decomposition failed: ".toList ++ reason
  | notANumber => "result is not a number".toList
  | factorialOverflow operand => "factorial of ".toList ++ operand ++ " overflows".toList
  | invalidDigit digit radix =>
    quoted [digit] ++ " is not a valid base-".toList ++ digitsOf radix ++ " digit".toList

end Fault

end MatrixCalculator
