import MatrixCalculator.Matrix.Routines
import Mathlib.Order.Defs.LinearOrder

/-!
# Sizes of the results of routines

What the operations on matrices rely on: the factors of a decomposition fit together, there
is an eigenvalue for each row, and an inverse is as large as its matrix.
-/

namespace MatrixCalculator.Matrix

/-- Whether there are as many left and right vectors as singular values, of a given
number. -/
structure Singular.HasCount (s : Singular) (count : Nat) : Prop where
  values : s.values.length = count
  left : s.left.length = count
  right : s.right.length = count

/-- Whether vectors are the rows of a square matrix. -/
def FormSquare (n : Nat) (vectors : List (List Float)) : Prop :=
  vectors.length = n ∧ ∀ v ∈ vectors, v.length = n

class LawfulRoutines [Routines] : Prop where
  /-- There are as many singular values as rows or as columns, whichever are fewer. -/
  hasCount : ∀ {m s}, Routines.singular m = .ok s → s.HasCount (min m.height m.width)
  /-- The right vectors of a matrix that is not wider than high have an entry for each
  column. -/
  formSquare_right : ∀ {m s}, m.width ≤ m.height → Routines.singular m = .ok s →
    FormSquare m.width s.right
  size_symmetricEigen : ∀ {m values vectors}, m.height = m.width →
    Routines.symmetricEigen m = (values, vectors) →
      values.length = m.height ∧ vectors.height = m.height ∧ vectors.width = m.height
  length_realEigenvalues : ∀ {m values}, m.height = m.width →
    Routines.realEigenvalues? m = some values → values.length = m.height
  size_inverse : ∀ {m inverse}, m.height = m.width → Routines.inverse? m = some inverse →
    inverse.height = m.height ∧ inverse.width = m.height

variable {m : Matrix Float} {s : Singular}

theorem singular_eq_ok_iff [Routines] : m.singular = .ok s ↔ Routines.singular m = .ok s := by
  rw [singular]
  cases Routines.singular m with
  | error reason => exact iff_of_false nofun nofun
  | ok found => simp only [Except.ok.injEq]

theorem hasCount_of_singular [Routines] [LawfulRoutines] (hs : m.singular = .ok s) :
    s.HasCount (min m.height m.width) :=
  LawfulRoutines.hasCount (singular_eq_ok_iff.1 hs)

theorem formSquare_right_of_singular [Routines] [LawfulRoutines] (htall : m.width ≤ m.height)
    (hs : m.singular = .ok s) : FormSquare m.width s.right :=
  LawfulRoutines.formSquare_right htall (singular_eq_ok_iff.1 hs)

end MatrixCalculator.Matrix
