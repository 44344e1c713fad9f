import MatrixCalculator.Text.Basic

/-!
# Symbols

Characters and words of the expression grammar that stand for operators and
constants.
-/

namespace MatrixCalculator.Symbol

/-- The minus sign of displayed text; inside, a hyphen stands for it. -/
def minus : Char := '\u2212'

def times : Char := '\u00d7'

def divide : Char := '\u00f7'

def squareRoot : Char := '\u221a'

def cubeRoot : Char := '\u221b'

def pi : Char := '\u03c0'

def infinity : Char := '\u221e'

def modulo : Text := ['m', 'o', 'd']

end MatrixCalculator.Symbol
