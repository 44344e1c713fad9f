import MatrixCalculator.Separators
import MatrixCalculator.Symbol
import MatrixCalculator.Text.Blank

/-!
# Displayed and internal text

What is typed and shown uses the minus sign, blanks and the characters of a
locale; what is evaluated uses the hyphen and the canonical separators.
`enter` leads from the first to the second, `present` and `localize` back.
-/

namespace MatrixCalculator.Display

/-- Whether a typed character is layout: a blank, or a grouping mark where the
decimal point is not the canonical one. -/
def isLayout (separators : Separators) (c : Char) : Bool :=
  Text.isBlank c || (separators.decimalPoint != '.' && c == separators.grouping)

/-- The internal character for a typed one. -/
def enterChar (separators : Separators) (c : Char) : Char :=
  if c = Symbol.minus then '-'
  else if c = '*' then Symbol.times
  else if c = '/' then Symbol.divide
  else if separators.decimalPoint ≠ '.' ∧ c = separators.decimalPoint then '.'
  else c

def enter (separators : Separators) (text : Text) : Text :=
  (text.filter fun c => !isLayout separators c).map (enterChar separators)

/-- A result with the minus sign of the display. -/
def present (text : Text) : Text := text.map fun c => if c = '-' then Symbol.minus else c

/-- A canonical result with the characters of a locale; `comma` is what a comma
of this result stands for, a column mark or a grouping mark. -/
def localize (separators : Separators) (comma : Char) (text : Text) : Text :=
  if separators.isCanonical then text
  else
    text.map fun c =>
      if c = '.' then separators.decimalPoint else if c = ',' then comma else c

end MatrixCalculator.Display
