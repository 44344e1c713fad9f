import MatrixCalculator.Matrix.Basic
import Mathlib.Tactic

/-!
# Entries of matrices

A matrix is its shape and its entries: the rows hold the entries in order, and what an
operation does is said entry by entry.
-/

namespace MatrixCalculator.Matrix

variable {α β : Type} {m : Matrix α}

@[ext]
theorem ext {a b : Matrix α} (hwidth : a.width = b.width) (hrows : a.rows = b.rows) : a = b := by
  cases a
  cases b
  cases hwidth
  cases hrows
  rfl

theorem length_entries (m : Matrix α) : m.entries.length = m.height * m.width := by
  rw [entries, List.length_flatten, List.map_congr_left m.uniform]
  simp [height]

variable [Zero α]

@[simp]
theorem height_sub [Sub α] (a b : Matrix α) : (a - b).height = a.height :=
  height_combine (· - ·) a b

@[simp]
theorem width_sub [Sub α] (a b : Matrix α) : (a - b).width = a.width := rfl

/-- Rows of the right width are the rows of their matrix. -/
theorem rows_ofRows {width : Nat} {rows : List (List α)}
    (huniform : ∀ row ∈ rows, row.length = width) : (ofRows width rows).rows = rows := by
  refine List.ext_getElem (by simp [ofRows, ofFn]) fun i hi hrow => ?_
  have hwidth := huniform rows[i] (List.getElem_mem hrow)
  refine List.ext_getElem (by simp [ofRows, ofFn, hwidth]) fun j hj hentry => ?_
  simp [ofRows, ofFn, hrow, hentry]

/-- The rows of a matrix hold its entries in order. -/
theorem rows_eq (m : Matrix α) :
    m.rows = (List.range m.height).map fun i => (List.range m.width).map (m.entry i) :=
  (rows_ofRows m.uniform).symm

theorem entries_eq (m : Matrix α) :
    m.entries = (List.range m.height).flatMap fun i => (List.range m.width).map (m.entry i) := by
  rw [entries, rows_eq, List.flatMap_def]

theorem entry_map [Zero β] (f : α → β) {i j : Nat} (hi : i < m.height) (hj : j < m.width) :
    (m.map f).entry i j = f (m.entry i j) := by
  have hrow : m.rows[i].length = m.width := m.uniform _ (List.getElem_mem hi)
  simp [entry, map, List.getD_eq_getElem?_getD, List.getElem?_eq_getElem hi, hrow, hj]

theorem entry_ofFn {height width : Nat} (f : Nat → Nat → α) {i j : Nat} (hi : i < height)
    (hj : j < width) : (ofFn height width f).entry i j = f i j := by
  simp [entry, ofFn, hi, hj]

/-- An entry of a product is added up from a row and a column. -/
theorem entry_mul [Add α] [Mul α] [MulAdd α] (a b : Matrix α) {i j : Nat} (hi : i < a.height)
    (hj : j < b.width) :
    (a * b).entry i j = entryProduct a b ((List.range a.width).map (a.entry i))
      ((List.range b.height).map fun k => b.entry k j) := by
  have hproduct : a * b = ofFn a.height b.width fun i j =>
      entryProduct a b ((List.range a.width).map (a.entry i))
        ((List.range b.height).map fun k => b.entry k j) := by
    refine ext rfl ?_
    change a.rows.map (fun row => b.columns.map (entryProduct a b row)) = _
    rw [rows_eq, List.map_map, columns]
    simp [ofFn, Function.comp_def]
  rw [hproduct, entry_ofFn _ hi hj]

end MatrixCalculator.Matrix
