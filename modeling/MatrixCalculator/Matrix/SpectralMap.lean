import MatrixCalculator.Matrix.Power

/-!
# Functions of eigenvalues

A function of a diagonalisable matrix is the function of the magnitudes of its
eigenvalues, between the matrix of eigenvectors and its inverse.  A symmetric
matrix always has real eigenvalues and an orthogonal basis of eigenvectors; any
other one needs as many independent eigenvectors as it has rows, which are
found among the right singular vectors of the matrix less an eigenvalue.
-/

namespace MatrixCalculator.Matrix

/-- Eigenvalues this close to each other, relative to their magnitude, count as
one. -/
def groupingTolerance : Float := 1.0e-6

/-- Singular values up to this one, relative to the matrix, count as zero. -/
def nullSpaceTolerance : Float := 1.0e-8

/-- Two entries on opposite sides of the diagonal this close to each other,
relative to the matrix, count as equal. -/
def symmetryTolerance : Float := 1.0e-12

/-- The greatest magnitude of an entry, and one at least. -/
def scale (m : Matrix Float) : Float :=
  m.entries.foldl (fun greatest x => if greatest < x.abs then x.abs else greatest) 1.0

/-- Whether a square matrix is symmetric but for rounding errors. -/
def isSymmetric (m : Matrix Float) : Bool :=
  (List.range m.height).all fun i => (List.range i).all fun j =>
    (m.entry j i - m.entry i j).abs <= symmetryTolerance * m.scale

/-- How many numbers at the head of a list count as equal to the eigenvalue. -/
def multiplicity (eigenvalue : Float) (others : List Float) : Nat :=
  let magnitude := if 1.0 < eigenvalue.abs then eigenvalue.abs else 1.0
  (others.takeWhile fun x => (x - eigenvalue).abs <= groupingTolerance * magnitude).length

/-- The right singular vectors of the least singular values, which have to count
as zero.  Equal values keep their order. -/
def nullSpace (s : Singular) (scale : Float) (count : Nat) : Except Fault (List (List Float)) :=
  let ascending := (List.zip s.values s.right).mergeSort fun a b => Numeral.ranksUpTo a.1 b.1
  (ascending.take count).mapM fun (value, v) =>
    if nullSpaceTolerance * scale < value then throw .notDiagonalizable else return v

/-- The eigenvalues in ascending order, each with an eigenvector.  Eigenvalues that
count as one share the first of them and its eigenspace. -/
def eigenpairs [Routines] (m : Matrix Float) :
    (ascending : List Float) → Except Fault (List (Float × List Float))
  | [] => return []
  | eigenvalue :: others => do
    let repeats := multiplicity eigenvalue others
    let shifted := m - (identity m.height).map (· * eigenvalue)
    let s ← shifted.singular
    let vectors ← nullSpace s m.scale (repeats + 1)
    let rest ← m.eigenpairs (others.drop repeats)
    return vectors.map (eigenvalue, ·) ++ rest
termination_by ascending => ascending.length

def ofColumns (height : Nat) (columns : List (List Float)) : Matrix Float :=
  ofFn height columns.length fun i j => (columns.getD j []).getD i 0

/-- A function of the magnitudes of the eigenvalues of a symmetric matrix. -/
def mapSymmetric [Routines] (f : Float → Float) (m : Matrix Float) : Matrix Float :=
  let (values, vectors) := Routines.symmetricEigen m
  vectors * diagonal (values.map fun x => f x.abs) * vectors.transpose

/-- A function of the magnitudes of the eigenvalues of any square matrix with
independent real eigenvectors. -/
def mapDiagonalizable [Routines] (f : Float → Float) (m : Matrix Float) :
    Except Fault (Matrix Float) :=
  match Routines.realEigenvalues? m with
  | none => .error .notDiagonalizable
  | some values => do
    let pairs ← m.eigenpairs (values.mergeSort Numeral.ranksUpTo)
    let vectors := ofColumns m.height (pairs.map Prod.snd)
    match Routines.inverse? vectors with
    | none => throw .notDiagonalizable
    | some inverse => return vectors * diagonal (pairs.map fun pair => f pair.1.abs) * inverse

/-- A function of the magnitudes of the eigenvalues. -/
def spectralMap [Routines] (operation : Text) (f : Float → Float) (m : Matrix Float) :
    Except Fault (Matrix Float) := do
  let _ ← m.requireSquare operation
  m.requireFinite
  if m.isSymmetric then return m.mapSymmetric f else m.mapDiagonalizable f

end MatrixCalculator.Matrix
