import MatrixCalculator.Numeral.Double

/-!
# Roots

Cube roots and the length of a vector with two entries, rounded once.  `Float.cbrt` is only
close to the root, and whether its root of 27 is 3 depends on the platform; rounded once, the
root of a cube is exact on all of them.  The root of a whole number is found bit by bit; scaled
far enough it has more bits than a double, and one bit more says whether something is left, so
rounding sees the exact root.
-/

namespace MatrixCalculator.Numeral

inductive Power where
  | square
  | cube

namespace Power

def degree : Power → Nat
  | square => 2
  | cube => 3

def apply : Power → Nat → Nat
  | square, root => root * root
  | cube, root => root * root * root

/-- A root improved by the powers of two below `2 ^ bits`, as far as its power stays
within `n`. -/
def refineRoot (power : Power) (n : Nat) : (bits root : Nat) → Nat
  | 0, root => root
  | bits + 1, root =>
    let next := root + 1 <<< bits
    if power.apply next ≤ n then refineRoot power n bits next else refineRoot power n bits root

def wholeRoot (power : Power) (n : Nat) : Nat :=
  power.refineRoot n (n.log2 / power.degree + 1) 0

/-- The double closest to the root of a positive rational whose scaled value is
whole or has more bits than the root can use. -/
def nearestRoot (power : Power) (r : Rat) : Float :=
  let shift := 56 - floorLog2 r / power.degree
  let exact := r * (2 : Rat) ^ (power.degree * shift)
  let scaled := exact.floor.toNat
  let root := power.wholeRoot scaled
  let units := 2 * root + if power.apply root = scaled ∧ exact.den = 1 then 0 else 1
  nearest (units / (2 : Rat) ^ (shift + 1))

end Power

def cubeRoot (x : Float) : Float :=
  if x.isFinite = false ∨ x == 0 then x
  else if isNegative x then -Power.cube.nearestRoot (magnitude x)
  else Power.cube.nearestRoot (magnitude x)

def hypotenuse (x y : Float) : Float :=
  if x.isFinite ∧ y.isFinite then
    let square := magnitude x * magnitude x + magnitude y * magnitude y
    if square = 0 then 0 else Power.square.nearestRoot square
  else if x.isInf ∨ y.isInf then infinity
  else x + y

end MatrixCalculator.Numeral
