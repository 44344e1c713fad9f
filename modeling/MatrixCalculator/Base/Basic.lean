import MatrixCalculator.Separators

/-!
# Numeral bases

The three bases numerals can be read and written in, with the group length and
the grouping mark each of them uses.
-/

namespace MatrixCalculator

inductive Base where
  | binary
  | decimal
  | hexadecimal
  deriving DecidableEq, Repr

namespace Base

def radix : Base → Nat
  | binary => 2
  | decimal => 10
  | hexadecimal => 16

/-- How many digits stand between two grouping marks. -/
def groupLength : Base → Nat
  | binary => 4
  | decimal => 3
  | hexadecimal => 2

def groupMark (separators : Separators) : Base → Char
  | binary => separators.binary
  | decimal => separators.grouping
  | hexadecimal => separators.hexadecimal

def names : List (Text × Base) :=
  [("bin".toList, binary), ("binary".toList, binary), ("2".toList, binary),
    ("dec".toList, decimal), ("decimal".toList, decimal), ("10".toList, decimal),
    ("hex".toList, hexadecimal), ("hexadecimal".toList, hexadecimal), ("16".toList, hexadecimal)]

/-- The base with a name, in letters of either case. -/
def ofName? (name : Text) : Option Base :=
  (names.find? fun entry => entry.1 = name.map Char.toLower).map Prod.snd

/-- The characters numerals of all bases are made of: decimal digits and the
capital letters up to `F`. -/
def isNumeralChar (c : Char) : Bool := c.isDigit || ('A' ≤ c && c ≤ 'F')

def digitValue (c : Char) : Nat :=
  if c.isDigit then c.toNat - '0'.toNat else c.toNat - 'A'.toNat + 10

theorem groupLength_pos (base : Base) : 0 < base.groupLength := by
  cases base <;> decide

end Base

end MatrixCalculator
