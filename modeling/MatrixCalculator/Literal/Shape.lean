import MatrixCalculator.Base.Basic
import MatrixCalculator.Symbol

/-!
# The shape of a literal

Whether a text has to be evaluated as one with matrices is decided before its
numerals are read: somewhere in it there are brackets around rows of fields, and
a field is a numeral of any base with an optional sign, or nothing.  The
separators of a locale may coincide with each other and with other characters,
so the scan keeps every place of the pattern it may be at.
-/

namespace MatrixCalculator.Literal

inductive Place where
  | beforeRows
  | fieldStart
  | whole
  | fraction
  | afterRow
  | complete
  deriving DecidableEq, Repr

namespace Place

def all : List Place := [beforeRows, fieldStart, whole, fraction, afterRow, complete]

/-- Whether a character ends a field and leads to a place behind it. -/
def endsField (separators : Separators) (c : Char) : Place → Bool
  | fieldStart => c == separators.matrix
  | afterRow => c == ']'
  | _ => false

def leads (separators : Separators) (c : Char) : (source target : Place) → Bool
  | beforeRows, fieldStart => c == '['
  | fieldStart, whole => c == '-' || c == Symbol.minus || Base.isNumeralChar c
  | fieldStart, fraction => c == separators.decimalPoint
  | fieldStart, target => endsField separators c target
  | whole, whole => Base.isNumeralChar c
  | whole, fraction => c == separators.decimalPoint
  | whole, target => endsField separators c target
  | fraction, fraction => Base.isNumeralChar c
  | fraction, target => endsField separators c target
  | afterRow, fieldStart => c == '['
  | afterRow, complete => c == ']'
  | complete, complete => true
  | _, _ => false

/-- The places a scan may be at behind one more character; a literal may begin
anywhere. -/
def step (separators : Separators) (places : List Place) (c : Char) : List Place :=
  all.filter fun target =>
    (target == beforeRows && c == '[') || places.any fun source => leads separators c source target

end Place

/-- Whether something in the text has the shape of a literal. -/
def occursIn (separators : Separators) (text : Text) : Bool :=
  (text.foldl (Place.step separators) []).contains Place.complete

end MatrixCalculator.Literal
