import MatrixCalculator.Matrix.Routines

/-!
# Pseudo-inverse and powers

The pseudo-inverse inverts the singular values that stand out from rounding
errors, so every finite matrix has one.  A whole power is a repeated product, of
the pseudo-inverse if the exponent is negative; any other power is taken of the
singular values.
-/

namespace MatrixCalculator.Matrix

/-- The bound up to which singular values count as zero. -/
def Singular.bound (s : Singular) (height width : Nat) : Float :=
  Float.ofNat (max height width) * unitRoundoff * greatestMagnitude s.values

def pseudoInverse [Routines] (m : Matrix Float) : Except Fault (Matrix Float) := do
  m.requireFinite
  let s ← m.singular
  let bound := s.bound m.height m.width
  let inverted := s.values.map fun x => if bound < x then 1.0 / x else 0.0
  let scaled := List.zipWith (fun left x => left.map (· * x)) s.left inverted
  let left := ofFn m.height scaled.length fun i j => (scaled.getD j []).getD i 0
  return (left * ofRows m.width s.right).transpose

/-- A power of the singular values of a square matrix. -/
def singularPower [Routines] (m : Matrix Float) (exponent : Float) :
    Except Fault (Matrix Float) := do
  m.requireFinite
  let s ← m.singular
  let n := m.height
  let left := ofFn n n fun i j => (s.left.getD j []).getD i 0
  let right := ofRows n s.right
  return left * diagonal (s.values.map (·.pow exponent)) * right

/-- The power of a square matrix.  The number of factors is cut at `2 ^ 64 - 1`, the
largest word. -/
def power [Routines] (m : Matrix Float) (exponent : Float) : Except Fault (Matrix Float) := do
  let _ ← m.requireSquare "matrix power".toList
  if exponent.isFinite = false then throw .notANumber
  else if Numeral.isWhole exponent = false then m.singularPower exponent
  else
    let base ← if exponent < 0 then m.pseudoInverse else pure m
    return base.powerBySquaring (Numeral.toWord exponent)

end MatrixCalculator.Matrix
