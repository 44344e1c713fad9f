import MatrixCalculator.Operand
import MatrixCalculator.Operator.Basic

/-!
# Operators on operands

What the operators do to numbers and matrices.  A number acts on all entries of
a matrix for sums and products, division by a matrix is multiplication by its
pseudo-inverse, and a power takes the matrix as its base wherever the matrix
stands.  Two matrices have to have shapes that fit.
-/

namespace MatrixCalculator.Operator

def unsupported (op : Operator) (operands : Text) : Fault := .unsupportedOperands op.name operands

def mismatch (op : Operator) (a b : Matrix Float) : Fault :=
  .dimensionMismatch op.name a.height a.width b.height b.width

def onMatrixScalar [Matrix.Routines] (op : Operator) (m : Matrix Float) (x : Float) :
    Except Fault Operand :=
  match op with
  | pow => .matrix <$> m.power x
  | mul => .ok (.matrix (m.map (· * x)))
  | div => .ok (.matrix (m.map (· / x)))
  | add => .ok (.matrix (m.map (· + x)))
  | sub => .ok (.matrix (m.map (· + -x)))
  | mod => .error (op.unsupported "a matrix and a scalar".toList)

def onScalarMatrix [Matrix.Routines] (op : Operator) (x : Float) (m : Matrix Float) :
    Except Fault Operand :=
  match op with
  | div => do return .matrix ((← m.pseudoInverse).map (· * x))
  | mod => .error (op.unsupported "a scalar and a matrix".toList)
  | _ => op.onMatrixScalar m x

def onMatrices [Matrix.Routines] (op : Operator) (a b : Matrix Float) : Except Fault Operand :=
  match op with
  | add => if a.SameShape b then .ok (.matrix (a + b)) else .error (op.mismatch a b)
  | sub => if a.SameShape b then .ok (.matrix (a - b)) else .error (op.mismatch a b)
  | mul => if a.width = b.height then .ok (.matrix (a * b)) else .error (op.mismatch a b)
  | div =>
    if a.width = b.width then do return .matrix (a * (← b.pseudoInverse))
    else .error (op.mismatch a b)
  | pow | mod => .error (op.unsupported "two matrices".toList)

def apply [Matrix.Routines] (op : Operator) : Operand → Operand → Except Fault Operand
  | .scalar x, .scalar y => .ok (.scalar (op.onScalars x y))
  | .matrix m, .scalar x => op.onMatrixScalar m x
  | .scalar x, .matrix m => op.onScalarMatrix x m
  | .matrix a, .matrix b => op.onMatrices a b

end MatrixCalculator.Operator
