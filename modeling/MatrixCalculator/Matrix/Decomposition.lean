import MatrixCalculator.Matrix.Determinant
import MatrixCalculator.Matrix.Singular
import MatrixCalculator.Matrix.Spectrum
import MatrixCalculator.Matrix.Tridiagonal

/-!
# Decompositions by reflections and rotations

The routines with which expressions are evaluated.
-/

namespace MatrixCalculator.Matrix

instance : Routines where
  determinant := determinant
  inverse? := inverse?
  singular m := .ok (.ofMatrix m)
  symmetricEigen := symmetricEigen
  realEigenvalues? := realEigenvalues?

end MatrixCalculator.Matrix
