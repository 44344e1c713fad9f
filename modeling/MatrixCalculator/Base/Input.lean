import MatrixCalculator.Base.Basic
import MatrixCalculator.Fault

/-!
# Numerals of a base as input

Before evaluation every numeral of the configured base is replaced by a decimal
one that denotes the same number.  A numeral is a run of digits with an optional
fraction; all other characters stay as they are.
-/

namespace MatrixCalculator.Base

def digit? (base : Base) (c : Char) : Except Fault Nat :=
  if digitValue c < base.radix then .ok (digitValue c) else .error (.invalidDigit c base.radix)

/-- The number that digits of the base denote, rounded after each of them. -/
def wholeValue (base : Base) (digits : List Nat) : Float :=
  digits.foldl
    (fun total (digit : Nat) =>
      Numeral.nearest (Numeral.value total * base.radix + (digit : Rat))) 0

/-- A whole part with fraction digits added, the first of which counts the given
place, and each other one a place that is finer by the radix. -/
def addFraction (base : Base) (place : Float) : (total : Float) → (digits : List Nat) → Float
  | total, [] => total
  | total, digit :: digits =>
    addFraction base (Numeral.nearest (Numeral.value place / base.radix))
      (Numeral.nearest (Numeral.value total + digit * Numeral.value place)) digits

/-- The number that the digits of a whole part and of a fraction denote. -/
def numeralValue (base : Base) (whole fraction : List Nat) : Float :=
  base.addFraction (Numeral.nearest (1 / base.radix)) (base.wholeValue whole) fraction

/-- The fraction digits at the head of a text, if a point with a digit behind it
stands there, and what follows them. -/
def takeFraction (point : Char) (text : Text) : Text × Text :=
  match text with
  | mark :: digit :: rest =>
    if mark = point ∧ isNumeralChar digit then
      (digit :: rest.takeWhile isNumeralChar, rest.dropWhile isNumeralChar)
    else ([], text)
  | _ => ([], text)

theorem takeFraction_length_le (point : Char) (text : Text) :
    (takeFraction point text).2.length ≤ text.length := by
  unfold takeFraction
  split
  · split
    · have := Text.length_dropWhile_le isNumeralChar ‹Text›
      simp only [List.length_cons]
      omega
    · exact Nat.le_refl _
  · exact Nat.le_refl _

/-- The decimal text of the number that a whole part and a fraction denote, with
the given point. -/
def decimalText (base : Base) (point : Char) (whole fraction : Text) : Except Fault Text := do
  let wholeDigits ← whole.mapM base.digit?
  let fractionDigits ← fraction.mapM base.digit?
  let text := Numeral.writePositional (base.numeralValue wholeDigits fractionDigits)
  return text.map fun c => if c = '.' then point else c

def convertNumerals (base : Base) (point : Char) : Text → Except Fault Text
  | [] => .ok []
  | c :: text =>
    if isNumeralChar c then do
      let afterWhole := text.dropWhile isNumeralChar
      let numeral ← base.decimalText point (c :: text.takeWhile isNumeralChar)
        (takeFraction point afterWhole).1
      let rest ← base.convertNumerals point (takeFraction point afterWhole).2
      return numeral ++ rest
    else (c :: ·) <$> base.convertNumerals point text
termination_by text => text.length
decreasing_by
  · have := takeFraction_length_le point (text.dropWhile isNumeralChar)
    have := Text.length_dropWhile_le isNumeralChar text
    simp only [List.length_cons]
    omega
  · simp

def toDecimal (base : Base) (point : Char) (text : Text) : Except Fault Text :=
  if base = decimal then .ok text else base.convertNumerals point text

end MatrixCalculator.Base
