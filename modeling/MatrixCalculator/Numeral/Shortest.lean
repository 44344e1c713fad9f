import MatrixCalculator.Numeral.Decimal

/-!
# Shortest decimals

Among the decimals that read back as a given double the shortest one lies on
the coarsest decimal grid that has such a point, and on that grid one of the
two neighbours of the double's value is such a point.  So the search walks the
grids from coarse to fine, reads both neighbours back, and keeps the closer one
that returns the double; halfway between two, it keeps the greater.
-/

namespace MatrixCalculator.Numeral

/-- A grid exponent above the magnitude of `r`: `30103 / 100000` exceeds the
decimal logarithm of two by less than a unit over the whole range. -/
def coarsestGrid (r : Rat) : Int := (floorLog2 r + 1) * 30103 / 100000 + 1

/-- The neighbour of `r` on the grid of `10 ^ exponent` that reads back as `x`,
the closer one where both do. -/
def neighbour? (x : Float) (r : Rat) (exponent : Int) : Option Decimal :=
  let position := r / (10 : Rat) ^ exponent
  let below : Decimal := ⟨position.floor.toNat, exponent⟩
  let above : Decimal := ⟨position.floor.toNat + 1, exponent⟩
  let lower := below.toDouble.toBits == x.toBits
  let upper := above.toDouble.toBits == x.toBits
  if lower && (!upper || decide (position - position.floor < 1 / 2)) then some below
  else if upper then some above
  else none

/-- The first decimal found on `steps` grids, each ten times finer than the one
before. -/
def searchGrids (x : Float) (r : Rat) : (steps : Nat) → (exponent : Int) → Option Decimal
  | 0, _ => none
  | steps + 1, exponent =>
    match neighbour? x r exponent with
    | some d => some d
    | none => searchGrids x r steps (exponent - 1)

/-- The decimal that equals the magnitude of a finite double: a half is five
tenths. -/
def exactDecimal (x : Float) : Decimal :=
  if 0 ≤ gridOf x then ⟨significand x <<< (gridOf x).toNat, 0⟩
  else ⟨significand x * Nat.pow 5 (-gridOf x).toNat, gridOf x⟩

/-- The shortest decimal that reads back as the magnitude of a finite double
other than zero.  Twenty grids below the coarsest the spacing is finer than
that of the doubles; the exact decimal stands behind the search so that the
answer reads back without an appeal to that. -/
def shortest (x : Float) : Decimal :=
  (searchGrids x.abs (magnitude x) 20 (coarsestGrid (magnitude x))).getD (exactDecimal x)

end MatrixCalculator.Numeral
