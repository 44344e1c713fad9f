import MatrixCalculator.Factorial
import MatrixCalculator.Symbol

/-!
# Marks and constants

The passes over an expression that only look at neighbouring characters: percent
marks become factors, factorials of written whole numbers become numerals, the
constants are spelled out, and one missing parenthesis is closed.
-/

namespace MatrixCalculator.Expression

def isDigit? (c : Option Char) : Bool := c.any Char.isDigit

/-- What a percent mark behind a numeral stands for. -/
def percentFactor : Text := Symbol.times :: "0.01".toList

/-- Percent marks behind a digit and not in front of one, as factors. -/
def spellPercents (previous : Option Char) : Text → Text
  | [] => []
  | c :: text =>
    if c = '%' ∧ isDigit? previous ∧ !isDigit? text.head? then
      percentFactor ++ spellPercents (some c) text
    else c :: spellPercents (some c) text

def writtenFactorial (digits : Text) : Except Fault Text :=
  let n := Numeral.ofDigits digits
  if n < Numeral.wordCount then Factorial.write n else .error (.factorialOverflow digits)

/-- Factorials of whole runs of digits, except for those that are the fraction of
a numeral. -/
def spellFactorials (afterPoint : Bool) : Text → Except Fault Text
  | [] => return []
  | c :: text =>
    have := Text.length_dropWhile_le Char.isDigit text
    if c.isDigit then
      let run := c :: text.takeWhile Char.isDigit
      if (text.dropWhile Char.isDigit).head? = some '!' ∧ !afterPoint then do
        let product ← writtenFactorial run
        return product ++ (← spellFactorials false (text.dropWhile Char.isDigit).tail)
      else do return run ++ (← spellFactorials false (text.dropWhile Char.isDigit))
    else do return c :: (← spellFactorials (c == '.') text)
termination_by text => text.length
decreasing_by all_goals simp only [List.length_cons, List.length_tail]; omega

def eDigits : Text := "2.7182818284590452353".toList

def piDigits : Text := "3.1415926535897932384626".toList

/-- The constants spelled out.  A letter `e` beside a digit is an exponent mark and
stays; a digit beside `π` is a factor. -/
def spellConstants (previous : Option Char) : Text → Text
  | [] => []
  | c :: text =>
    let rest := spellConstants (some c) text
    if c = 'e' ∧ !isDigit? previous ∧ !isDigit? text.head? then eDigits ++ rest
    else if c = Symbol.pi then
      (if isDigit? previous then [Symbol.times] else []) ++ piDigits ++
        (if isDigit? text.head? then [Symbol.times] else []) ++ rest
    else c :: rest

/-- A text with one missing parenthesis closed; the numbers of opening and closing
ones must be equal then. -/
def balance (text : Text) : Except Fault Text :=
  if text.count '(' = text.count ')' + 1 then .ok (text ++ [')'])
  else if text.count '(' = text.count ')' then .ok text
  else .error .unbalancedParentheses

end MatrixCalculator.Expression
