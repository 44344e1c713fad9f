/-!
# Doubles as exact rationals

A finite double is a whole number of units on a binary grid, so every
question about reading, printing and whole parts can be asked of its exact
rational value.  The main operations are `value`, which forgets nothing but
the sign of zero, and `nearest`, the rounding of an arbitrary rational to the
closest double with ties to the even significand.
-/

namespace MatrixCalculator.Numeral

/-- Spacing exponent of the subnormal doubles, the finest binary grid. -/
def finestGrid : Int := -1074

/-- How many doubles there are from one power of two up to the next. -/
def binade : Nat := 0x10000000000000

/-- Bit pattern of negative zero: the sign alone. -/
def signBits : Nat := 0x8000000000000000

/-- How many words of 64 bits there are. -/
def wordCount : Nat := 0x10000000000000000

/-- Bit pattern of positive infinity, the first one that is not finite. -/
def infinityBits : Nat := 0x7FF0000000000000

def infinity : Float := Float.ofBits infinityBits.toUInt64

def magnitudeBits (x : Float) : Nat := x.toBits.toNat % signBits

/-- Whether the sign bit is set; it is for negative zero. -/
def isNegative (x : Float) : Bool := decide (signBits ≤ x.toBits.toNat)

/-- The place of a double among all of them, in which negative zero stands right below zero. -/
def rank (x : Float) : Int :=
  if isNegative x then -(magnitudeBits x : Int) - 1 else magnitudeBits x

/-- Whether a double does not stand behind another one. -/
def ranksUpTo (x y : Float) : Bool := decide (rank x ≤ rank y)

/-- How many units of its grid the magnitude of a finite double is. -/
def significand (x : Float) : Nat :=
  if magnitudeBits x / binade = 0 then magnitudeBits x
  else magnitudeBits x % binade + binade

/-- The exponent of the grid a finite double lies on. -/
def gridOf (x : Float) : Int :=
  if magnitudeBits x / binade = 0 then finestGrid
  else (magnitudeBits x / binade : Nat) - 1 + finestGrid

/-- The exact magnitude of a finite double. -/
def magnitude (x : Float) : Rat := significand x * (2 : Rat) ^ gridOf x

/-- The exact value of a finite double. -/
def value (x : Float) : Rat := if isNegative x then -magnitude x else magnitude x

/-- `⌊log₂ r⌋` for positive `r`, from the bit lengths of both parts. -/
def floorLog2 (r : Rat) : Int :=
  let estimate : Int := (r.num.natAbs.log2 : Int) - r.den.log2
  if r < (2 : Rat) ^ estimate then estimate - 1 else estimate

/-- The whole number closest to `r`; a tie goes to the even one. -/
def roundHalfEven (r : Rat) : Int :=
  let rest := r - r.floor
  if 1 / 2 < rest ∨ (rest = 1 / 2 ∧ r.floor % 2 = 1) then r.floor + 1 else r.floor

/-- The grid on which a positive rational has a full significand, or the
finest one. -/
def gridFor (r : Rat) : Int := max (floorLog2 r - 52) finestGrid

/-- Bit pattern of the double closest to a non-negative rational.  Patterns are
consecutive along the grids, so a significand that rounds up to the next power
of two carries into the exponent by itself. -/
def nearestBits (r : Rat) : Nat :=
  if r ≤ 0 then 0
  else
    let grid := gridFor r
    let units := (roundHalfEven (r / (2 : Rat) ^ grid)).toNat
    min (units + (grid - finestGrid).toNat * binade) infinityBits

/-- The double closest to a rational, with ties to the even significand and
infinity beyond the finite range. -/
def nearest (r : Rat) : Float :=
  if r < 0 then -Float.ofBits (nearestBits (-r)).toUInt64
  else Float.ofBits (nearestBits r).toUInt64

/-- The whole part, rounded toward zero; a double of at least `2 ^ 52` is whole
already, which covers infinities and NaN. -/
def truncate (x : Float) : Float :=
  if x.isFinite then
    let whole := nearest (magnitude x).floor
    if isNegative x then -whole else whole
  else x

/-- Whether a double is finite and has no fraction. -/
def isWhole (x : Float) : Bool := x.isFinite && (magnitude x).den == 1

/-- The remainder of exact division with the sign of the dividend. -/
def remainder (x y : Float) : Float :=
  if x.isFinite = false ∨ y.isNaN ∨ y == 0 then 0.0 / 0.0
  else if y.isInf then x
  else
    let quotient := (magnitude x / magnitude y).floor
    let rest := nearest (magnitude x - quotient * magnitude y)
    if isNegative x then -rest else rest

/-- The whole part of a non-negative finite double as a 64-bit word, the
largest word standing for everything beyond. -/
def toWord (x : Float) : Nat := min (magnitude x).floor.toNat (wordCount - 1)

end MatrixCalculator.Numeral
