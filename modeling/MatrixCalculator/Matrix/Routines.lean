import MatrixCalculator.Matrix.Requirement

/-!
# Routines on matrices

What the operations on matrices take from a library of linear algebra.  The operations
know a routine by its type alone, so what is said of them holds for every
implementation.
-/

namespace MatrixCalculator.Matrix

/-- Singular values, with the left and the right vector of each. -/
structure Singular where
  values : List Float
  left : List (List Float)
  right : List (List Float)

class Routines where
  determinant : Matrix Float → Float
  inverse? : Matrix Float → Option (Matrix Float)
  /-- The singular values with their vectors, or the reason why there are none. -/
  singular : Matrix Float → Except Text Singular
  /-- The eigenvalues of a symmetric matrix, and the matrix of its eigenvectors. -/
  symmetricEigen : Matrix Float → List Float × Matrix Float
  /-- The eigenvalues, if all of them are real. -/
  realEigenvalues? : Matrix Float → Option (List Float)

def singular [Routines] (m : Matrix Float) : Except Fault Singular :=
  match Routines.singular m with
  | .ok s => .ok s
  | .error reason => .error (.decompositionFailed reason)

/-- The distance from one to the next double. -/
def unitRoundoff : Float := 2.220446049250313e-16

def greatestMagnitude (xs : List Float) : Float :=
  xs.foldl (fun greatest x => if greatest < x.abs then x.abs else greatest) 0

end MatrixCalculator.Matrix
