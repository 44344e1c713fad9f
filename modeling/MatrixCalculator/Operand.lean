import MatrixCalculator.Literal.Basic
import MatrixCalculator.Matrix.SpectralMap
import MatrixCalculator.NamedFunction

/-!
# Operands

An operand is a number or a matrix.  Functions act on the entries of a matrix,
except for the determinant, which is a number, and for the roots, which act on
its eigenvalues.
-/

namespace MatrixCalculator

inductive Operand where
  | scalar (x : Float)
  | matrix (m : Matrix Float)

namespace Operand

def write : Operand → Text
  | scalar x => Numeral.write x
  | matrix m => Literal.write m

def determinant [Matrix.Routines] (m : Matrix Float) : Except Fault Float := do
  let _ ← m.requireSquare "determinant".toList
  return Matrix.Routines.determinant m

def apply [Matrix.Routines] (f : NamedFunction) : Operand → Except Fault Operand
  | scalar x => .ok (scalar (f.apply x))
  | matrix m =>
    match f with
    | .det => scalar <$> determinant m
    | .sqrt => matrix <$> m.spectralMap "square root".toList Float.sqrt
    | .cbrt => matrix <$> m.spectralMap "cube root".toList Numeral.cubeRoot
    | _ => .ok (matrix (m.map f.apply))

end Operand

end MatrixCalculator
