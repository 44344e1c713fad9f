import MatrixCalculator.Fault
import MatrixCalculator.Matrix.Basic

/-!
# Requirements on matrices

What an operation asks of its matrix before it starts.
-/

namespace MatrixCalculator.Matrix

/-- The side length of a square matrix. -/
def requireSquare {α : Type} (operation : Text) (m : Matrix α) : Except Fault Nat :=
  if m.height = m.width then .ok m.height else .error (.notSquare operation m.height m.width)

def isFinite (m : Matrix Float) : Bool := m.entries.all Float.isFinite

/-- Nothing but finite entries; the decompositions cannot work on others. -/
def requireFinite (m : Matrix Float) : Except Fault Unit :=
  if m.isFinite then .ok () else .error .notANumber

end MatrixCalculator.Matrix
