import MatrixCalculator.Literal.Basic
import MatrixCalculator.Proofs.Expression.ValueText
import MatrixCalculator.Proofs.Matrix.Entries
import MatrixCalculator.Proofs.Outcome

/-!
# Reading a written literal

A literal that has been written is read back as the matrix that it shows.  Its fields
are written numbers, in which none of the characters around fields occurs, so every
field is found again where it was put.
-/

namespace MatrixCalculator

open Expression Numeral Outcome Text

namespace Literal

variable {resolve : Text → Except Fault Text} {m : Matrix Float} {rest : Text}

/-! ## The text between the brackets -/

def rowText (row : List Float) : Text := [','].intercalate (row.map Numeral.write)

theorem flatMap_writeRow {rows : List (List Float)} (hne : rows ≠ []) :
    rows.flatMap writeRow = ['['] ++ rowBreak.intercalate (rows.map rowText) ++ [']'] := by
  induction rows with
  | nil => exact absurd rfl hne
  | cons row rows ih =>
    cases rows with
    | nil => simp [writeRow, rowText]
    | cons next rows =>
      rw [List.flatMap_cons, ih (List.cons_ne_nil _ _), intercalate_map_cons]
      simp [writeRow, rowText, rowBreak]

/-- A literal is its rows with breaks between them, in brackets. -/
theorem write_eq (hrows : m.rows ≠ []) :
    write m = opening ++ rowBreak.intercalate (m.rows.map rowText) ++ closing := by
  rw [write, flatMap_writeRow hrows]
  simp [opening, closing]

theorem interior?_eq_some_iff {text interior : Text} :
    interior? text = some interior ↔ text = opening ++ interior ++ closing := by
  simp only [interior?, Option.bind_eq_bind, Option.bind_eq_some_iff, after?_eq_some_iff,
    before?_eq_some_iff]
  constructor
  · rintro ⟨inside, rfl, rfl⟩
    rw [List.append_assoc]
  · rintro rfl
    exact ⟨interior ++ closing, by rw [List.append_assoc], rfl⟩

/-- The text between the brackets of a literal is found again. -/
theorem interior?_brackets (body : Text) : interior? (opening ++ body ++ closing) = some body :=
  interior?_eq_some_iff.2 rfl

theorem interior?_write (hrows : m.rows ≠ []) :
    interior? (write m) = some (rowBreak.intercalate (m.rows.map rowText)) := by
  rw [write_eq hrows, interior?_brackets]

theorem writeRow_eq (row : List Float) : writeRow row = ['['] ++ rowText row ++ [']'] := rfl

theorem not_mem_rowText {c : Char} {row : List Float} (hcomma : c ≠ ',')
    (hfields : ∀ x ∈ row, c ∉ Numeral.write x) : c ∉ rowText row := by
  induction row with
  | nil => simp [rowText]
  | cons x row ih =>
    obtain ⟨hfield, hfields⟩ := List.forall_mem_cons.1 hfields
    cases row with
    | nil => simpa [rowText] using hfield
    | cons y row =>
      have hmark : c ∉ [','] := by simpa using hcomma
      rw [rowText, intercalate_map_cons, List.mem_append, List.mem_append, not_or, not_or]
      exact ⟨hfield, hmark, ih hfields⟩

theorem bracket_not_mem_rowText (row : List Float) : ']' ∉ rowText row :=
  not_mem_rowText (by decide) fun x _ => not_mem_number x (by decide)

theorem splitOn_rowText {row : List Float} (hne : row ≠ []) :
    splitOn [','] (rowText row) = row.map Numeral.write := by
  refine splitOn_intercalate (by simpa using hne) fun field hfield => ?_
  obtain ⟨x, -, rfl⟩ := List.mem_map.1 hfield
  exact not_mem_number x (by decide)

/-- The fields of a written literal are the written entries. -/
theorem fieldsOf_write (hrows : m.rows ≠ []) (hwidth : 0 < m.width) :
    fieldsOf Separators.canonical (rowBreak.intercalate (m.rows.map rowText)) =
      m.rows.map (List.map Numeral.write) := by
  have hsplit : splitOn rowBreak (rowBreak.intercalate (m.rows.map rowText)) =
      m.rows.map rowText := by
    refine splitOn_intercalate (by simpa using hrows) fun text htext => ?_
    obtain ⟨row, -, rfl⟩ := List.mem_map.1 htext
    exact bracket_not_mem_rowText row
  rw [fieldsOf, hsplit, List.map_map]
  refine List.map_congr_left fun row hrow => splitOn_rowText ?_
  rintro rfl
  have hlength := m.uniform [] hrow
  rw [List.length_nil] at hlength
  omega

/-! ## Reading -/

section Calls

variable {M : Type → Type} [Monad M] [LawfulMonad M] [MonadExceptOf Fault M]
  {resolve : Text → M Text} {note : Text → M Unit}

theorem readFields_write {row : List Float}
    (hresolve : ∀ x,
      resolve (Numeral.write x) = do note (Numeral.write x); return Numeral.write x) :
    readFields resolve (row.map Numeral.write) = (do
      (row.map Numeral.write).forM note
      return row.map shown) := by
  induction row with
  | nil => simp [readFields]
  | cons x row ih =>
    rw [List.map_cons, readFields, if_neg (write_ne_nil x), hresolve]
    simp only [bind_assoc, pure_bind, read?_write, ih]
    simp

theorem readRows_write {width : Nat} {rows : List (List Float)}
    (huniform : ∀ row ∈ rows, row.length = width)
    (hresolve : ∀ x,
      resolve (Numeral.write x) = do note (Numeral.write x); return Numeral.write x) :
    readRows resolve width (rows.map (List.map Numeral.write)) = (do
      (rows.flatten.map Numeral.write).forM note
      return rows.map (List.map shown)) := by
  induction rows with
  | nil => simp [readRows]
  | cons row rows ih =>
    have hlength : ¬(row.map Numeral.write).length ≠ width := by
      rw [List.length_map, huniform row (by simp)]
      exact fun h => h rfl
    rw [List.map_cons, readRows, if_neg hlength, readFields_write hresolve,
      ih fun other hother => huniform other (by simp [hother])]
    simp

/-- Reading a written literal hands over the written entries, in reading order and each
of them once, and ends with the matrix that the literal shows. -/
theorem read_write_calls (note : Text → M Unit) (hheight : 0 < m.height) (hwidth : 0 < m.width)
    (hresolve : ∀ x,
      resolve (Numeral.write x) = do note (Numeral.write x); return Numeral.write x) :
    read Separators.canonical resolve (write m) = (do
      (m.entries.map Numeral.write).forM note
      return m.map shown) := by
  have hrows : m.rows ≠ [] := List.length_pos_iff.1 hheight
  obtain ⟨first, others, hfirst⟩ := List.exists_cons_of_ne_nil hrows
  have hhead : ((m.rows.map (List.map Numeral.write)).headD []).length = m.width := by
    have huniform := m.uniform first (by simp [hfirst])
    simpa [hfirst] using huniform
  have hmap : ∀ row ∈ (m.map shown).rows, row.length = m.width := (m.map shown).uniform
  have hshown : Matrix.ofRows m.width (m.rows.map (List.map shown)) = m.map shown :=
    Matrix.ext rfl (Matrix.rows_ofRows hmap)
  rw [read, interior?_write hrows]
  simp only [fieldsOf_write hrows hwidth, hhead, readRows_write m.uniform hresolve, bind_assoc,
    pure_bind, hshown]
  rfl

end Calls

/-- A written literal is read back as the matrix that it shows. -/
theorem read_write (hheight : 0 < m.height) (hwidth : 0 < m.width)
    (hresolve : ∀ x, resolve (Numeral.write x) = .ok (Numeral.write x)) :
    read Separators.canonical resolve (write m) = .ok (m.map shown) := by
  have hcalls := read_write_calls (fun _ => pure ()) hheight hwidth fun x =>
    (hresolve x).trans (pure_bind _ _).symm
  rw [hcalls]
  simp

/-- Writing the matrix shown changes nothing. -/
theorem write_map_shown (m : Matrix Float) : write (m.map shown) = write m := by
  have hrow : ∀ row : List Float, writeRow (row.map shown) = writeRow row := by
    intro row
    simp [writeRow, Function.comp_def, write_shown]
  simp [write, Matrix.map, List.flatMap_map, hrow]

/-! ## Where a literal ends -/

/-- Rows that are written without a bracket that closes end at the first pair of these. -/
theorem cut?_closing_rows {lines : List Text} (hne : lines ≠ [])
    (hlines : ∀ line ∈ lines, ']' ∉ line) :
    cut? closing (rowBreak.intercalate lines ++ (closing ++ rest)) =
      some (rowBreak.intercalate lines, rest) := by
  induction lines with
  | nil => exact absurd rfl hne
  | cons line lines ih =>
    obtain ⟨hline, hlines⟩ := List.forall_mem_cons.1 hlines
    cases lines with
    | nil =>
      have hmark : cut? closing (closing ++ rest) = some ([], rest) :=
        cut?_mark (List.cons_ne_nil _ _)
      rw [List.intercalate_singleton, closing, cut?_append hline, ← closing, hmark]
      simp
    | cons next lines =>
      have hbreak : cut? closing (rowBreak ++ (rowBreak.intercalate (next :: lines) ++
          (closing ++ rest))) =
          some (rowBreak ++ rowBreak.intercalate (next :: lines), rest) := by
        rw [rowBreak, List.cons_append, List.cons_append, List.nil_append, cut?_cons rfl,
          cut?_cons rfl, ← rowBreak, ih (List.cons_ne_nil _ _) hlines]
        rfl
      rw [List.intercalate_cons_cons, List.append_assoc, List.append_assoc, List.append_assoc,
        closing, cut?_append hline, ← closing, hbreak]
      rfl

/-- A written literal ends at the first pair of brackets that close. -/
theorem cut?_closing {rows : List (List Float)} (hne : rows ≠ []) :
    cut? closing (rowBreak.intercalate (rows.map rowText) ++ (closing ++ rest)) =
      some (rowBreak.intercalate (rows.map rowText), rest) := by
  refine cut?_closing_rows (by simpa using hne) fun line hline => ?_
  obtain ⟨row, -, rfl⟩ := List.mem_map.1 hline
  exact bracket_not_mem_rowText row

end Literal

end MatrixCalculator
