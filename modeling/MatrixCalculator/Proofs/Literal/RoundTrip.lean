import MatrixCalculator.Proofs.Literal
import MatrixCalculator.Proofs.Shape

/-!
# Written matrices

What is written of a matrix is a literal that ends where the matrix does, whatever text
follows it.  Read again it gives the matrix without its noise, and every entry is asked
for once, row by row: the bracket pairs and commas between the entries are never taken
for part of one.
-/

namespace MatrixCalculator

open Numeral Text

/-! ## Bytes -/

namespace Literal

variable {m : Matrix Float}

theorem dropBytes?_append (left right : Text) :
    dropBytes? (byteLength left) (left ++ right) = some right := by
  induction left with
  | nil => rw [byteLength, dropBytes?]; rfl
  | cons c left ih =>
    obtain ⟨size, hsize⟩ := Nat.exists_eq_succ_of_ne_zero c.utf8Size_pos.ne'
    rw [byteLength, hsize, Nat.succ_add, List.cons_append, dropBytes?, hsize,
      if_pos (by omega)]
    rw [show size + byteLength left + 1 - size.succ = byteLength left by omega, ih]

/-- A written literal ends where it has been written, whatever follows it. -/
theorem endOffset?_write (hheight : 0 < m.height) (rest : Text) :
    endOffset? (write m ++ rest) 0 = some (byteLength (write m)) := by
  have hrows : m.rows ≠ [] := List.length_pos_iff.1 hheight
  rw [write_eq hrows, endOffset?, Nat.zero_add, List.append_assoc, List.append_assoc,
    dropBytes?_append, Option.bind_eq_bind, Option.bind_some, cut?_closing hrows]
  simp [byteLength_append, Nat.add_assoc]

/-! ## Fields that have been asked for -/

/-- A computation that may fail and keeps a record of fields, the first one first. -/
abbrev Recorded : Type → Type := ExceptT Fault (StateM (List Text))

def record (field : Text) : Recorded Unit := modify (· ++ [field])

/-- A field as it is, which is put on the record. -/
def unchanged (field : Text) : Recorded Text := do
  record field
  return field

theorem run_forM_record (fields seen : List Text) :
    (forM fields record).run.run seen = (.ok (), seen ++ fields) := by
  induction fields generalizing seen with
  | nil => rw [List.append_nil]; rfl
  | cons field fields ih =>
    have hfirst : (record field).run.run seen = (.ok (), seen ++ [field]) := rfl
    rw [List.forM_cons, ExceptT.run_bind, StateT.run_bind, hfirst]
    refine (ih (seen ++ [field])).trans ?_
    rw [List.append_assoc, List.singleton_append]

/-- What has been written of a matrix is read as the matrix without its noise, and its
fields are asked for row by row. -/
theorem run_read_write (hm : m.HasEntries) :
    (read Separators.canonical unchanged (write m)).run.run [] =
      (.ok (m.map shown), m.entries.map Numeral.write) := by
  rw [read_write_calls record hm.1 hm.2 fun _ => rfl, ExceptT.run_bind, StateT.run_bind,
    List.forM_eq_forM, run_forM_record, List.nil_append]
  rfl

/-- The matrix that is read where a matrix has been written, the fields that are asked
for on the way, and where the literal ends in front of other text. -/
theorem exists_read_write (hm : m.HasEntries) (rest : Text) :
    ∃ back seen,
      (read Separators.canonical unchanged (write m)).run.run [] = (.ok back, seen) ∧
      back.height = m.height ∧ back.width = m.width ∧
      (∀ i < m.height, ∀ j < m.width,
        back.entry i j = if (m.entry i j).abs < 1e-10 then 0 else m.entry i j) ∧
      seen = ((List.range m.height).flatMap fun i =>
        (List.range m.width).map fun j => Numeral.write (m.entry i j)) ∧
      seen.length = m.height * m.width ∧
      endOffset? (write m ++ rest) 0 = some (byteLength (write m)) := by
  refine ⟨m.map shown, m.entries.map Numeral.write, run_read_write hm, m.height_map shown,
    m.width_map shown, ?_, ?_, ?_, endOffset?_write hm.1 rest⟩
  · exact fun i hi j hj => Matrix.entry_map shown hi hj
  · rw [Matrix.entries_eq, List.map_flatMap]
    simp only [List.map_map, Function.comp_def]
  · rw [List.length_map, Matrix.length_entries]

theorem exists_read_write_noise : ∃ back seen,
    (read Separators.canonical unchanged "[[-0.5,0][Infinity,NaN]]".toList).run.run [] =
      (.ok back, seen) ∧
    back.entry 0 0 = -0.5 ∧ back.entry 0 1 = 0 ∧ (back.entry 1 1).isNaN = true ∧
    seen = ["-0.5", "0", "Infinity", "NaN"].map String.toList ∧
    endOffset? "[[-0.5,0][Infinity,NaN]]+[[1]]".toList 0 = some 24 := by
  have hwrite : write (Matrix.ofRows 2 [[-0.5, 1e-11], [infinity, 0 / 0]]) =
      "[[-0.5,0][Infinity,NaN]]".toList := by decide +kernel
  obtain ⟨back, seen, hrun, -, -, hentry, hseen, -, hend⟩ :=
    exists_read_write (show (Matrix.ofRows 2 [[-0.5, 1e-11], [infinity, 0 / 0]]).HasEntries by
      decide) "+[[1]]".toList
  rw [hwrite] at hrun hend
  refine ⟨back, seen, hrun, ?_, ?_, ?_, ?_, hend⟩
  · rw [hentry 0 (by decide) 0 (by decide)]
    exact if_neg (by decide)
  · rw [hentry 0 (by decide) 1 (by decide)]
    exact if_pos (by decide)
  · rw [hentry 1 (by decide) 1 (by decide)]
    decide +kernel
  · rw [hseen]
    decide +kernel

end Literal

end MatrixCalculator
