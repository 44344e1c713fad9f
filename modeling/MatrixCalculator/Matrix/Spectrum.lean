import MatrixCalculator.Matrix.AlmostTriangular

/-!
# Real eigenvalues

The eigenvalues of a square matrix, as long as all of them are real.  Those of a
matrix of two rows have a closed form; those of a larger one are the diagonal of
its triangular form.
-/

namespace MatrixCalculator.Matrix

def realEigenvalues? (m : Matrix Float) : Option (List Float) :=
  let a := m.entry
  match m.height with
  | 0 => some []
  | 1 => some [a 0 0]
  | 2 =>
    (eigenvaluePair? (a 0 0) (a 0 1) (a 1 0) (a 1 1)).map fun (first, second) => [first, second]
  | n =>
    let scale := greatestMagnitude m.entries
    let reduced := AlmostTriangular.ofRows (m.rows.map (List.map (· / scale)))
    let (t, start, last) := AlmostTriangular.block reduced (n - 1)
    (AlmostTriangular.triangularDiagonal? (AlmostTriangular.rounds roundLimit start last t)).map
      (List.map (· * scale))

end MatrixCalculator.Matrix
