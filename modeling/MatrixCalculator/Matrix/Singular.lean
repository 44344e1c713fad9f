import MatrixCalculator.Matrix.Bidiagonal

/-!
# Singular values

The diagonal form of a bidiagonal matrix is the singular value decomposition: the
matrix is the sum of the products of a left vector, a singular value and a right
vector.  The values are in descending order.  A matrix that is wider than high is decomposed
by way of its transpose.
-/

namespace MatrixCalculator.Matrix

namespace Singular

/-- A singular value with its vectors; a negative value becomes positive with
the opposite left vector. -/
structure Triple where
  value : Float
  left : List Float
  right : List Float

def triples (scale : Float) (b : Bidiagonal) : List Triple :=
  (List.range b.diagonal.length).map fun i =>
    let value := b.diagonalAt i * scale
    let left := b.left.getD i []
    let right := b.right.getD i []
    if value < 0 then ⟨-value, left.map (-·), right⟩ else ⟨value, left, right⟩

/-- The decomposition of a matrix at least as high as wide, whose columns and rows
are reflected by the given products. -/
def ofTall (down across : List Float → List Float → Float) (m : Matrix Float) : Singular :=
  let scale := greatestMagnitude m.entries
  let columns := if scale == 0 then m.columns else m.columns.map (List.map (· / scale))
  let b := (Bidiagonal.ofColumns down across m.width m.height columns).diagonalize
  let sorted := (triples scale b).mergeSort fun a b => b.value <= a.value
  ⟨sorted.map Triple.value, sorted.map Triple.left, sorted.map Triple.right⟩

/-- The decomposition of a matrix that is not empty. -/
def ofMatrix (m : Matrix Float) : Singular :=
  if m.width ≤ m.height then ofTall inner dot m
  else
    let s := ofTall dot inner m.transpose
    ⟨s.values, s.right, s.left⟩

end Singular

end MatrixCalculator.Matrix
