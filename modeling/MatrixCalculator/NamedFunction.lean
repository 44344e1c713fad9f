import MatrixCalculator.Symbol
import MatrixCalculator.Numeral.Root

/-!
# Named functions

The functions of one argument and their spellings.  No spelling starts with
another one that stands before it in the table, so the first match in table
order is the longest.
-/

namespace MatrixCalculator

inductive NamedFunction where
  | sqrt
  | cbrt
  | sin
  | cos
  | tan
  | sind
  | cosd
  | tand
  | asin
  | acos
  | atan
  | asind
  | acosd
  | atand
  | log
  | ln
  | det
  deriving DecidableEq, Repr

namespace NamedFunction

/-- The spellings, longer ones before those they start with. -/
def spellings : List (Text × NamedFunction) :=
  [([Symbol.squareRoot], sqrt), ([Symbol.cubeRoot], cbrt), ("cbrt".toList, cbrt),
    ("log".toList, log), ("ln".toList, ln),
    ("asind".toList, asind), ("acosd".toList, acosd), ("atand".toList, atand),
    ("asin".toList, asin), ("acos".toList, acos), ("atan".toList, atan),
    ("sind".toList, sind), ("cosd".toList, cosd), ("tand".toList, tand),
    ("sin".toList, sin), ("cos".toList, cos), ("tan".toList, tan), ("det".toList, det)]

def ofName? (name : Text) : Option NamedFunction :=
  (spellings.find? fun entry => entry.1 = name).map Prod.snd

/-- The function whose spelling a text starts with, and the spelling. -/
def atStart? (text : Text) : Option (Text × NamedFunction) :=
  spellings.find? fun entry => Text.startsWith entry.1 text

def name : NamedFunction → Text
  | sqrt => [Symbol.squareRoot]
  | cbrt => [Symbol.cubeRoot]
  | sin => "sin".toList
  | cos => "cos".toList
  | tan => "tan".toList
  | sind => "sind".toList
  | cosd => "cosd".toList
  | tand => "tand".toList
  | asin => "asin".toList
  | acos => "acos".toList
  | atan => "atan".toList
  | asind => "asind".toList
  | acosd => "acosd".toList
  | atand => "atand".toList
  | log => "log".toList
  | ln => "ln".toList
  | det => "det".toList

/-- Whether a character is a function by itself. -/
def isSymbol (c : Char) : Bool := c == Symbol.squareRoot || c == Symbol.cubeRoot

/-- The double closest to the ratio of a circle to its diameter. -/
def pi : Float := 3.141592653589793

def radians (x : Float) : Float := x * (pi / 180.0)

def degrees (x : Float) : Float := x * (180.0 / pi)

/-- The value at one number.  The variants in degrees convert the argument of
the direct functions and the result of the inverse ones; the determinant of a
number is the number. -/
def apply : NamedFunction → Float → Float
  | sqrt, x => x.sqrt
  | cbrt, x => Numeral.cubeRoot x
  | sin, x => x.sin
  | cos, x => x.cos
  | tan, x => x.tan
  | sind, x => (radians x).sin
  | cosd, x => (radians x).cos
  | tand, x => (radians x).tan
  | asin, x => x.asin
  | acos, x => x.acos
  | atan, x => x.atan
  | asind, x => degrees x.asin
  | acosd, x => degrees x.acos
  | atand, x => degrees x.atan
  | log, x => x.log10
  | ln, x => x.log
  | det, x => x

end NamedFunction

end MatrixCalculator
