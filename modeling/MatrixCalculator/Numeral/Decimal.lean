import MatrixCalculator.Text.Basic
import MatrixCalculator.Numeral.Double

/-!
# Decimal numerals

A decimal numeral is a coefficient and a power of ten.  Reading one is exact up
to the last step, in which the rational it denotes is rounded once to the
nearest double.  The accepted texts are an optional sign and then either
digits with an optional fraction and an optional exponent, or a word for
infinity or for a value that is not a number.
-/

namespace MatrixCalculator.Numeral

/-- The decimal `coefficient * 10 ^ exponent`. -/
structure Decimal where
  coefficient : Nat
  exponent : Int
  deriving DecidableEq, Repr

namespace Decimal

def toRat (d : Decimal) : Rat := d.coefficient * (10 : Rat) ^ d.exponent

/-- The double closest to a decimal.  A decimal above `10 ^ 400` is beyond the
finite doubles and one below `10 ^ -399` is closest to zero, so the power of
ten is only formed where it can matter. -/
def toDouble (d : Decimal) : Float :=
  if d.coefficient = 0 then 0
  else if 400 < d.exponent then infinity
  else if d.exponent + d.coefficient.log2 < -400 then 0
  else nearest d.toRat

end Decimal

def ofDigits (digits : Text) : Nat := Nat.ofDigitChars 10 digits 0

/-- The exponent part of a numeral, which is zero when there is none. -/
def readExponent? : Text → Option Int
  | [] => some 0
  | mark :: text =>
    if mark = 'e' ∨ mark = 'E' then
      match text with
      | '-' :: digits => whole? digits |>.map fun n => -(n : Int)
      | '+' :: digits => whole? digits |>.map fun n => (n : Int)
      | digits => whole? digits |>.map fun n => (n : Int)
    else none
where
  /-- A run of digits that is not empty. -/
  whole? (digits : Text) : Option Nat :=
    if digits ≠ [] ∧ digits.all Char.isDigit then some (ofDigits digits) else none

/-- Digits, an optional fraction and an optional exponent, with a digit at
least on one side of the point. -/
def readDecimal? (text : Text) : Option Decimal :=
  let whole := text.takeWhile Char.isDigit
  let (fraction, rest) :=
    match text.dropWhile Char.isDigit with
    | '.' :: tail => (tail.takeWhile Char.isDigit, tail.dropWhile Char.isDigit)
    | rest => ([], rest)
  if whole = [] ∧ fraction = [] then none
  else
    (readExponent? rest).map fun exponent =>
      ⟨ofDigits (whole ++ fraction), exponent - fraction.length⟩

/-- A numeral without a sign, or one of the words `inf`, `infinity` and `nan` in
letters of either case. -/
def readUnsigned? (text : Text) : Option Float :=
  let word := text.map Char.toLower
  if word = "inf".toList ∨ word = "infinity".toList then some infinity
  else if word = "nan".toList then some (0.0 / 0.0)
  else (readDecimal? text).map Decimal.toDouble

def read? : Text → Option Float
  | '-' :: text => (readUnsigned? text).map (-·)
  | '+' :: text => readUnsigned? text
  | text => readUnsigned? text

end MatrixCalculator.Numeral
