import MatrixCalculator.Numeral.Shortest

/-!
# Written numbers

A number is written with the digits of its shortest decimal, either
positionally or with an exponent.  `write` is the form of all results: it
hides magnitudes below `1e-10`, which are noise of a decomposition, as `0`, and
writes magnitudes from a thousandth up to ten million positionally and all
others with an exponent.
-/

namespace MatrixCalculator.Numeral

/-- The decimal digits of a number, without leading zeros unless it is zero. -/
def digitsOf (n : Nat) : Text := Nat.toDigits 10 n

/-- Digits with the place of the point counted from their left end, so that
the number denoted is `0.digits * 10 ^ point`. -/
structure Digits where
  digits : Text
  point : Int

/-- The digits of a decimal, without zeros at the right end. -/
def Decimal.toDigits (d : Decimal) : Digits :=
  let digits := digitsOf d.coefficient
  ⟨(digits.reverse.dropWhile (· == '0')).reverse, digits.length + d.exponent⟩

/-- Digits around a point, with zeros up to the point where digits are missing
and no point after a whole number. -/
def Digits.positional (d : Digits) : Text :=
  if d.point ≤ 0 then ['0', '.'] ++ List.replicate (-d.point).toNat '0' ++ d.digits
  else if (d.digits.length : Int) ≤ d.point then
    d.digits ++ List.replicate (d.point - d.digits.length).toNat '0'
  else d.digits.take d.point.toNat ++ ['.'] ++ d.digits.drop d.point.toNat

def writeInt (n : Int) : Text :=
  if n < 0 then '-' :: digitsOf n.natAbs else digitsOf n.natAbs

/-- One digit, the others after a point, and the power of ten behind `e`. -/
def Digits.scientific (d : Digits) : Text :=
  let mantissa := d.digits.take 1 ++ if d.digits.length ≤ 1 then [] else '.' :: d.digits.drop 1
  mantissa ++ ['e'] ++ writeInt (d.point - 1)

/-- A sign in front of the text of the magnitude; zero keeps its sign. -/
def signed (x : Float) (text : Text) : Text := if isNegative x then '-' :: text else text

/-- The shortest positional text of a double. -/
def writePositional (x : Float) : Text :=
  if x.isNaN then "NaN".toList
  else if x.isInf then signed x "inf".toList
  else if x == 0 then signed x "0".toList
  else signed x (shortest x).toDigits.positional

/-- The shortest text of a double with an exponent. -/
def writeScientific (x : Float) : Text :=
  if x.isNaN then "NaN".toList
  else if x.isInf then signed x "inf".toList
  else if x == 0 then signed x "0e0".toList
  else signed x (shortest x).toDigits.scientific

/-- Magnitudes below this one are written as zero. -/
def snapBound : Float := 1e-10

/-- Positional text is used from this magnitude on. -/
def positionalFrom : Float := 1e-3

/-- Positional text is used below this magnitude. -/
def positionalBelow : Float := 1e7

def notANumberWord : Text := "NaN".toList

def infinityWord : Text := "Infinity".toList

def write (x : Float) : Text :=
  if x.isNaN then notANumberWord
  else if x.isInf then signed x infinityWord
  else if x.abs < snapBound then "0".toList
  else if positionalFrom ≤ x.abs ∧ x.abs < positionalBelow then writePositional x
  else writeScientific x

end MatrixCalculator.Numeral
