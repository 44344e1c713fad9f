import MatrixCalculator.Matrix.Routines

/-!
# Reflections

One of the two kinds of orthogonal steps that decompositions are made of.  The
reflection of a vector at a suitable hyperplane clears all but its first entry;
a basis of the space behind that entry becomes one of the whole space by a unit
vector in front and the same reflection.
-/

namespace MatrixCalculator.Matrix

/-- The sign of a number, where zero keeps the sign of its bit. -/
def signOf (x : Float) : Float := if x < 0 || (x == 0 && 1.0 / x < 0) then -1 else 1

/-- The magnitude of a number and its sign, which is positive for zero. -/
def polar (x : Float) : Float × Float := if x >= 0 then (x, 1) else (-x, -1)

/-- Terms added to eight sums in turn, eight at a time, and the terms left over. -/
def addStrands : (sums terms : List Float) → List Float × List Float
  | sums, a :: b :: c :: d :: e :: f :: g :: h :: terms =>
    addStrands (List.zipWith (· + ·) sums [a, b, c, d, e, f, g, h]) terms
  | sums, terms => (sums, terms)

/-- The product of two vectors: the terms are added up in eight strands, and those
left over are added to the sum of the strands. -/
def inner (xs ys : List Float) : Float :=
  let (sums, rest) := addStrands (List.replicate 8 0.0) (List.zipWith (· * ·) xs ys)
  let pairs := List.zipWith (· + ·) (sums.take 4) (sums.drop 4)
  rest.foldl (· + ·) (pairs.foldl (· + ·) 0.0)

def norm (xs : List Float) : Float := (inner xs xs).sqrt

/-- A reflection at the hyperplane of `axis`, with a sign on its result. -/
structure Reflection where
  axis : List Float
  sign : Float

namespace Reflection

/-- The reflection that takes a vector to a multiple of the first unit vector,
and the factor; `none` if the vector is zero already. -/
def ofVector (v : List Float) : Option Reflection × Float :=
  let squared := inner v v
  let length := squared.sqrt
  let (modulus, sign) := polar (v.headD 0)
  let factor := (squared + modulus * length) * 2.0
  if factor == 0 then (none, sign * length)
  else
    let shifted := (v.headD 0 + sign * length) :: v.tail
    let scaled := shifted.map (· / factor.sqrt)
    let unit := scaled.map (· / norm scaled)
    (some ⟨unit, signOf (-(sign * length))⟩, -(sign * length))

/-- The reflected vector, with the sign, by a product of the axis and the vector. -/
def applyBy (product : List Float → List Float → Float) (r : Reflection) (v : List Float) :
    List Float :=
  let factor := product r.axis v * (r.sign * -2.0)
  List.zipWith (fun a x => factor * a + r.sign * x) r.axis v

/-- The reflected column of a matrix. -/
def applyDown (r : Reflection) (v : List Float) : List Float := r.applyBy inner v

/-- The reflected row of a matrix; a product with many rows is added up term by
term. -/
def applyAcross (r : Reflection) (v : List Float) : List Float := r.applyBy dot v

/-- The reflection without a sign on its result. -/
def plain (r : Reflection) : Reflection := { r with sign := 1 }

end Reflection

/-- Vectors behind a reflection, if there is one, by a product of vectors. -/
def reflectAll (product : List Float → List Float → Float) (r : Option Reflection)
    (vectors : List (List Float)) : List (List Float) :=
  match r with
  | some r => vectors.map (r.applyBy product)
  | none => vectors

/-- A basis with a unit vector in front of it, in one dimension more. -/
def extendBasis (length : Nat) (basis : List (List Float)) : List (List Float) :=
  (1.0 :: List.replicate (length - 1) 0.0) :: basis.map (0.0 :: ·)

end MatrixCalculator.Matrix
