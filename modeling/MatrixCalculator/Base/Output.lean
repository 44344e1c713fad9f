import MatrixCalculator.Base.Basic
import MatrixCalculator.Numeral.Decimal
import MatrixCalculator.Numeral.Extent

/-!
# Results in a base

After evaluation every decimal numeral of the result is replaced by one of the
configured base.  The whole part is exact, the fraction is cut after twelve
digits, and signs are not part of a numeral, so they stay where they are.
-/

namespace MatrixCalculator.Base

/-- Fraction digits written in a base other than the decimal one. -/
def fractionPlaces : Nat := 12

def digitsOf (base : Base) (n : Nat) : Text := (Nat.toDigits base.radix n).map Char.toUpper

/-- The fraction digits of a number below one, without zeros at the right end. -/
def fractionDigits (base : Base) (fraction : Rat) : Text :=
  let scaled := (fraction * (base.radix : Rat) ^ fractionPlaces).floor.toNat
  let digits := base.digitsOf scaled
  let padded := List.replicate (fractionPlaces - digits.length) '0' ++ digits
  (padded.reverse.dropWhile (· == '0')).reverse

/-- A non-negative number with its fraction cut. -/
def render (base : Base) (r : Rat) : Text :=
  let fraction := base.fractionDigits (r - r.floor)
  base.digitsOf r.floor.toNat ++ if fraction = [] then [] else '.' :: fraction

def renderNumerals (base : Base) : Text → Text
  | [] => []
  | c :: text =>
    let length := Numeral.extent (c :: text)
    if length = 0 then c :: base.renderNumerals text
    else
      match Numeral.readDecimal? ((c :: text).take length) with
      | some numeral =>
        base.render (Numeral.magnitude numeral.toDouble) ++
          base.renderNumerals (text.drop (length - 1))
      | none => c :: base.renderNumerals text
termination_by text => text.length

def ofDecimal (base : Base) (text : Text) : Text :=
  if base = decimal then text else base.renderNumerals text

end MatrixCalculator.Base
