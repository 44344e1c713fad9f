import MatrixCalculator.Matrix.Reflection

/-!
# Rotations

The other kind of orthogonal steps.  A rotation in the plane of two vectors
clears one entry of a pair; a symmetric block of two rows is made diagonal by
one rotation, and its eigenvalues are the shifts that make the rounds of
rotations converge.
-/

namespace MatrixCalculator.Matrix

/-- How many rounds of steps an iteration takes at most.  Every iteration that converges
stops long before. -/
def roundLimit : Nat := 10000

structure Rotation where
  cosine : Float
  sine : Float

namespace Rotation

def identity : Rotation := ⟨1, 0⟩

def inverse (r : Rotation) : Rotation := ⟨r.cosine, -r.sine⟩

def turn (r : Rotation) (a b : Float) : Float × Float :=
  (r.cosine * a - r.sine * b, r.sine * a + r.cosine * b)

def turnVectors (r : Rotation) (a b : List Float) : List Float × List Float :=
  (List.zipWith (fun x y => r.cosine * x - r.sine * y) a b,
    List.zipWith (fun x y => r.sine * x + r.cosine * y) a b)

def turnAt (r : Rotation) (i j : Nat) (vectors : List (List Float)) : List (List Float) :=
  match vectors[i]?, vectors[j]? with
  | some a, some b => (vectors.set i (r.turnVectors a b).1).set j (r.turnVectors a b).2
  | _, _ => vectors

/-- The rotation with cosine and sine in the ratio of two numbers, and the sign
of the first one, unless they are within `bound` of zero. -/
def ofRatio? (bound c s : Float) : Option (Rotation × Float) :=
  let (modulus, sign) := polar c
  let length := (modulus * modulus + s * s).sqrt
  if bound < length then some (⟨modulus / length, s / (sign * length)⟩, sign) else none

/-- The rotation that clears the second entry of a pair, and the first entry
after it; `none` if the second entry is zero. -/
def clearSecond? (x y : Float) : Option (Rotation × Float) :=
  if y == 0 then none
  else
    let (modulus, sign) := polar x
    let length := (modulus * modulus + y * y).sqrt
    some (⟨modulus / length, -y / (sign * length)⟩, sign * length)

/-- The rotation that clears the first entry of a pair, and the second entry
after it; `none` if the first entry is zero. -/
def clearFirst? (x y : Float) : Option (Rotation × Float) :=
  if x == 0 then none
  else
    let (modulus, sign) := polar y
    let length := (modulus * modulus + x * x).sqrt
    some (⟨modulus / length, (x * sign) / length⟩, sign * length)

end Rotation

/-- The shift for a trailing symmetric block: the eigenvalue of
`[[a, c], [c, b]]` closer to `b`. -/
def trailingEigenvalue (a b c : Float) : Float :=
  let square := c * c
  if square == 0 then b
  else
    let half := (a - b) * 0.5
    b - square / (half + signOf half * (half * half + square).sqrt)

/-- Both eigenvalues of `[[a, b], [c, d]]`, the greater one first, if they are
real. -/
def eigenvaluePair? (a b c d : Float) : Option (Float × Float) :=
  let half := (a - d) * 0.5
  let discriminant := c * b + half * half
  if 0 <= discriminant then
    let centre := (a + d) * 0.5
    some (centre + discriminant.sqrt, centre - discriminant.sqrt)
  else none

end MatrixCalculator.Matrix
