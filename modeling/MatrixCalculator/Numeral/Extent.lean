import MatrixCalculator.Text.Basic

/-!
# Where a numeral ends

A numeral inside a longer text is a run of digits, a fraction where a digit
follows the point, and an exponent where a digit follows its mark.  So `2.T` is
the numeral `2` and a point, and in `2e` the letter is the constant.
-/

namespace MatrixCalculator.Numeral

/-- How many digits a text starts with. -/
def digitRun (text : Text) : Nat := (text.takeWhile Char.isDigit).length

/-- The length of the fraction at the head of a text: a point and digits. -/
def fractionExtent : Text → Nat
  | '.' :: digits => if digitRun digits = 0 then 0 else digitRun digits + 1
  | _ => 0

/-- The length of the exponent at the head of a text: `e`, an optional hyphen and
digits. -/
def exponentExtent : Text → Nat
  | 'e' :: '-' :: digits => if digitRun digits = 0 then 0 else digitRun digits + 2
  | 'e' :: digits => if digitRun digits = 0 then 0 else digitRun digits + 1
  | _ => 0

/-- The length of the numeral at the head of a text, zero if there is none. -/
def extent (text : Text) : Nat :=
  let whole := digitRun text
  if whole = 0 then 0
  else
    let mantissa := whole + fractionExtent (text.drop whole)
    mantissa + exponentExtent (text.drop mantissa)

/-- The length of the numeral with an optional hyphen at the head of a text, zero
if there is none. -/
def signedExtent : Text → Nat
  | '-' :: text => if extent text = 0 then 0 else extent text + 1
  | text => extent text

end MatrixCalculator.Numeral
