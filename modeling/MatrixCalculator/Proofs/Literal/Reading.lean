import MatrixCalculator.Proofs.Literal.RoundTrip

/-!
# What reading a literal does

A literal is laid out in rows of fields, and there is only one way to see it so.  Reading
walks through the rows and asks for the fields one by one, and whoever answers may do so
by all that has been asked before.  Either every row is as wide as the first one and every
field has a number, and then these are the entries of the matrix; or reading ends with the
first fault, and has asked for what stands in front of it.
-/

namespace MatrixCalculator

namespace Literal

open Text

/-! ## Layout -/

/-- How a text is laid out as rows of fields. -/
structure Layout (separators : Separators) (text : Text) (rows : List (List Text)) : Prop where
  text_eq : text =
    opening ++ rowBreak.intercalate (rows.map [separators.matrix].intercalate) ++ closing
  rows_ne_nil : rows ≠ []
  fields_ne_nil : ∀ row ∈ rows, row ≠ []
  not_isInfix_row : ∀ row ∈ rows, ¬rowBreak <:+: [separators.matrix].intercalate row
  not_mem_field : ∀ row ∈ rows, ∀ field ∈ row, separators.matrix ∉ field

theorem splitOn_rowBreak_iff {text : Text} {lines : List Text} :
    splitOn rowBreak text = lines ↔ lines ≠ [] ∧ (∀ line ∈ lines, ¬rowBreak <:+: line) ∧
      text = rowBreak.intercalate lines := by
  refine splitOn_eq_iff (List.cons_ne_nil _ _) fun part hpart => ?_
  obtain ⟨left, right, hjoined⟩ := hpart
  rcases List.eq_nil_or_concat right with rfl | ⟨right, c, rfl⟩
  · have hlast := congrArg List.getLast? hjoined
    simp [rowBreak] at hlast
  · rw [List.concat_eq_append, ← List.append_assoc] at hjoined
    exact ⟨left, right, (List.append_inj' hjoined rfl).1⟩

theorem splitOn_separator_iff {c : Char} {text : Text} {fields : List Text} :
    splitOn [c] text = fields ↔ fields ≠ [] ∧ (∀ field ∈ fields, c ∉ field) ∧
      text = [c].intercalate fields := by
  have hself : ∀ part : Text, [c] <:+: part ++ [c].dropLast → [c] <:+: part :=
    fun part hpart => by simpa using hpart
  rw [splitOn_eq_iff (List.cons_ne_nil _ _) hself]
  simp only [List.singleton_infix_iff]

/-- The rows of fields of a literal are the only ones it can be laid out in. -/
theorem layout_iff {separators : Separators} {text : Text} {rows : List (List Text)} :
    Layout separators text rows ↔
      ∃ interior, interior? text = some interior ∧ fieldsOf separators interior = rows := by
  constructor
  · intro hlayout
    refine ⟨_, interior?_eq_some_iff.2 hlayout.text_eq, ?_⟩
    have hlines : splitOn rowBreak (rowBreak.intercalate
        (rows.map [separators.matrix].intercalate)) = rows.map [separators.matrix].intercalate :=
      splitOn_rowBreak_iff.2
        ⟨by simpa using hlayout.rows_ne_nil, by simpa using hlayout.not_isInfix_row, rfl⟩
    rw [fieldsOf, hlines, List.map_map]
    refine (List.map_congr_left fun row hrow => ?_).trans (List.map_id rows)
    exact splitOn_separator_iff.2
      ⟨hlayout.fields_ne_nil row hrow, hlayout.not_mem_field row hrow, rfl⟩
  · rintro ⟨interior, hinterior, rfl⟩
    obtain ⟨hlines, hbreaks, hjoined⟩ :=
      splitOn_rowBreak_iff.1 (Eq.refl (splitOn rowBreak interior))
    have hfields : ∀ line : Text, splitOn [separators.matrix] line ≠ [] ∧
        (∀ field ∈ splitOn [separators.matrix] line, separators.matrix ∉ field) ∧
        line = [separators.matrix].intercalate (splitOn [separators.matrix] line) :=
      fun line => splitOn_separator_iff.1 rfl
    have hrows : (fieldsOf separators interior).map [separators.matrix].intercalate =
        splitOn rowBreak interior := by
      rw [fieldsOf, List.map_map]
      exact (List.map_congr_left fun line _ => (hfields line).2.2.symm).trans (List.map_id _)
    refine ⟨?_, ?_, ?_, ?_, ?_⟩
    · rw [hrows, ← hjoined]
      exact interior?_eq_some_iff.1 hinterior
    · simpa [fieldsOf] using hlines
    · simpa [fieldsOf] using fun line _ => (hfields line).1
    · have hall : ∀ line ∈ (fieldsOf separators interior).map [separators.matrix].intercalate,
          ¬rowBreak <:+: line := hrows.symm ▸ hbreaks
      simpa using hall
    · simpa [fieldsOf] using fun line _ => (hfields line).2.1

/-! ## Fields and their numbers -/

section Order

variable {α β : Type} {asked : α → List Text} {R : List Text → α → β → Prop} {seen : List Text}
  {part : α} {parts : List α} {value : β} {values : List β}

/-- Whether parts have given values one by one, where each part comes after the fields
that have been seen and those that are asked for in the parts before it. -/
def InReadingOrder (asked : α → List Text) (R : List Text → α → β → Prop) (seen : List Text)
    (parts : List α) (values : List β) : Prop :=
  parts.length = values.length ∧ ∀ k part value, parts[k]? = some part → values[k]? = some value →
    R (seen ++ (parts.take k).flatMap asked) part value

theorem inReadingOrder_nil : InReadingOrder asked R seen [] values ↔ values = [] := by
  simp [InReadingOrder, List.length_eq_zero_iff, eq_comm]

theorem inReadingOrder_cons : InReadingOrder asked R seen (part :: parts) (value :: values) ↔
    R seen part value ∧ InReadingOrder asked R (seen ++ asked part) parts values := by
  constructor
  · rintro ⟨hlength, hvalues⟩
    refine ⟨by simpa using hvalues 0 part value rfl rfl, by simpa using hlength, ?_⟩
    intro k other number hother hnumber
    simpa using hvalues (k + 1) other number hother hnumber
  · rintro ⟨hvalue, hlength, hvalues⟩
    refine ⟨by simpa using hlength, ?_⟩
    rintro (_ | k) other number hother hnumber
    · cases hother
      cases hnumber
      simpa using hvalue
    · simpa using hvalues k other number hother hnumber

/-- Either all parts have values, or there is a first one that has none. -/
theorem inReadingOrder_or_first (asked : α → List Text) (R : List Text → α → β → Prop)
    (seen : List Text) (parts : List α) :
    (∃ values, InReadingOrder asked R seen parts values) ∨
      ∃ left part right values, parts = left ++ part :: right ∧
        InReadingOrder asked R seen left values ∧
        ∀ value, ¬R (seen ++ left.flatMap asked) part value := by
  induction parts generalizing seen with
  | nil => exact .inl ⟨[], inReadingOrder_nil.2 rfl⟩
  | cons part parts ih =>
    by_cases hvalue : ∃ value, R seen part value
    · obtain ⟨value, hvalue⟩ := hvalue
      rcases ih (seen ++ asked part) with ⟨values, hvalues⟩ | ⟨left, first, right, values, rfl,
        hvalues, hfirst⟩
      · exact .inl ⟨value :: values, inReadingOrder_cons.2 ⟨hvalue, hvalues⟩⟩
      · refine .inr ⟨part :: left, first, right, value :: values, rfl,
          inReadingOrder_cons.2 ⟨hvalue, hvalues⟩, ?_⟩
        rwa [List.flatMap_cons, ← List.append_assoc]
    · exact .inr ⟨[], part, parts, [], rfl, inReadingOrder_nil.2 rfl, by simpa using hvalue⟩

end Order

section Answers

/-- What is answered when a field is asked for, put on the record: it may depend on all
the fields before. -/
def ask (answer : List Text → Text → Except Fault Text) (field : Text) : Recorded Text := do
  let seen ← get
  record field
  MonadExcept.ofExcept (answer seen field)

variable (answer : List Text → Text → Except Fault Text)

/-- The number of a field, asked for after others. -/
structure HasNumber (seen : List Text) (field : Text) (x : Float) : Prop where
  ne_nil : field ≠ []
  number : ∃ resolved, answer seen field = .ok resolved ∧ Numeral.read? resolved = some x

def HasNumbers : List Text → List Text → List Float → Prop :=
  InReadingOrder (fun field => [field]) (HasNumber answer)

/-- The numbers of a row that has the right width. -/
structure HasRow (width : Nat) (seen row : List Text) (line : List Float) : Prop where
  length_eq : row.length = width
  numbers : HasNumbers answer seen row line

def HasRows (width : Nat) : List Text → List (List Text) → List (List Float) → Prop :=
  InReadingOrder id (HasRow answer width)

/-- Whether a matrix has the numbers of all fields as its entries, each of them asked for
after the fields of the rows above and those to its left. -/
structure Decodes (rows : List (List Text)) (m : Matrix Float) : Prop where
  height_eq : m.height = rows.length
  width_eq : ∀ row ∈ rows, row.length = m.width
  entry : ∀ i j row field, rows[i]? = some row → row[j]? = some field →
    HasNumber answer ((rows.take i).flatten ++ row.take j) field (m.entry i j)

/-- Why a field has no number, and what has been asked for by then. -/
inductive FieldFault (seen : List Text) (field : Text) : Fault → List Text → Prop
  | empty (hempty : field = []) : FieldFault seen field .emptyField []
  | unanswered {fault : Fault} (hfield : field ≠ []) (hanswer : answer seen field = .error fault) :
      FieldFault seen field fault [field]
  | notNumeric {resolved : Text} (hfield : field ≠ []) (hanswer : answer seen field = .ok resolved)
      (hread : Numeral.read? resolved = none) :
      FieldFault seen field (.fieldNotNumeric field) [field]

/-- The fault with which reading a text ends, and what has been asked for by then. -/
inductive FirstFault (separators : Separators) (text : Text) : Fault → List Text → Prop
  | brackets (htext : ∀ interior, text ≠ opening ++ interior ++ closing) :
      FirstFault separators text (.malformedLiteral text) []
  | length {rows above below : List (List Text)} {row : List Text} {lines : List (List Float)}
      (hlayout : Layout separators text rows) (hrows : rows = above ++ row :: below)
      (habove : HasRows answer (rows.headD []).length [] above lines)
      (hlength : row.length ≠ (rows.headD []).length) :
      FirstFault separators text (.raggedRows (rows.headD []).length row.length) above.flatten
  | field {rows above below : List (List Text)} {left right calls : List Text} {field : Text}
      {lines : List (List Float)} {numbers : List Float} {fault : Fault}
      (hlayout : Layout separators text rows)
      (hrows : rows = above ++ (left ++ field :: right) :: below)
      (habove : HasRows answer (rows.headD []).length [] above lines)
      (hlength : (left ++ field :: right).length = (rows.headD []).length)
      (hleft : HasNumbers answer above.flatten left numbers)
      (hfield : FieldFault answer (above.flatten ++ left) field fault calls) :
      FirstFault separators text fault (above.flatten ++ left ++ calls)

variable {answer} {seen after : List Text} {field : Text} {fields left right calls : List Text}
  {x : Float} {numbers : List Float} {fault : Fault}

/-- The entries of a matrix are the numbers of its rows. -/
theorem decodes_iff {rows : List (List Text)} {m : Matrix Float} :
    Decodes answer rows m ↔ HasRows answer m.width [] rows m.rows := by
  have hentry : ∀ {i j : Nat} {xs : List Float} {x : Float}, m.rows[i]? = some xs →
      xs[j]? = some x → m.entry i j = x := by
    intro i j xs x hxs hx
    rw [Matrix.entry, List.getD_eq_getElem?_getD, List.getD_eq_getElem?_getD, hxs,
      Option.getD_some, hx, Option.getD_some]
  have hseen : ∀ (i j : Nat) (row : List Text), [] ++ (rows.take i).flatMap id ++
      (row.take j).flatMap (fun field => [field]) = (rows.take i).flatten ++ row.take j := by
    intro i j row
    rw [List.nil_append, List.flatMap_id, List.flatMap_singleton']
  constructor
  · rintro ⟨hheight, hwidth, hnumbers⟩
    refine ⟨hheight.symm, fun i row xs hrow hxs => ?_⟩
    have hlength := hwidth row (List.mem_of_getElem? hrow)
    refine ⟨hlength, hlength.trans (m.uniform xs (List.mem_of_getElem? hxs)).symm, ?_⟩
    intro j field x hfield hx
    rw [hseen, ← hentry hxs hx]
    exact hnumbers i j row field hrow hfield
  · rintro ⟨hheight, hrows⟩
    have hrow : ∀ {i : Nat} {row : List Text}, rows[i]? = some row →
        ∃ xs, m.rows[i]? = some xs ∧
          HasRow answer m.width ([] ++ (rows.take i).flatMap id) row xs := by
      intro i row hrow
      have hi := (List.getElem?_eq_some_iff.1 hrow).1
      have hxs := List.getElem?_eq_getElem (hheight ▸ hi : i < m.rows.length)
      exact ⟨_, hxs, hrows i row _ hrow hxs⟩
    refine ⟨hheight.symm, fun row hmem => ?_, fun i j row field hget hfield => ?_⟩
    · obtain ⟨i, hget⟩ := List.getElem?_of_mem hmem
      obtain ⟨xs, -, hnumbers⟩ := hrow hget
      exact hnumbers.length_eq
    · obtain ⟨xs, hxs, -, hlength, hnumbers⟩ := hrow hget
      have hj := (List.getElem?_eq_some_iff.1 hfield).1
      have hx := List.getElem?_eq_getElem (hlength ▸ hj : j < xs.length)
      rw [← hseen, hentry hxs hx]
      exact hnumbers j field _ hfield hx

theorem exists_fieldFault (hnone : ∀ x, ¬HasNumber answer seen field x) :
    ∃ fault calls, FieldFault answer seen field fault calls := by
  by_cases hfield : field = []
  · exact ⟨_, _, .empty hfield⟩
  · cases hanswer : answer seen field with
    | error fault => exact ⟨_, _, .unanswered hfield hanswer⟩
    | ok resolved =>
      cases hread : Numeral.read? resolved with
      | none => exact ⟨_, _, .notNumeric hfield hanswer hread⟩
      | some x => exact absurd ⟨hfield, resolved, hanswer, hread⟩ (hnone x)

/-! ## Runs -/

theorem run_bind_ok {α β : Type} {c : Recorded α} {a : α} (hc : c.run.run seen = (.ok a, after))
    (f : α → Recorded β) : (c >>= f).run.run seen = (f a).run.run after := by
  rw [ExceptT.run_bind, StateT.run_bind, hc]
  rfl

theorem run_bind_error {α β : Type} {c : Recorded α}
    (hc : c.run.run seen = (.error fault, after)) (f : α → Recorded β) :
    (c >>= f).run.run seen = (.error fault, after) := by
  rw [ExceptT.run_bind, StateT.run_bind, hc]
  rfl

theorem run_ask : (ask answer field).run.run seen = (answer seen field, seen ++ [field]) := by
  change (MonadExcept.ofExcept (answer seen field) : Recorded Text).run.run (seen ++ [field]) = _
  cases answer seen field <;> rfl

theorem readFields_cons (hfield : field ≠ []) :
    readFields (ask answer) (field :: fields) = do
      match Numeral.read? (← ask answer field) with
      | none => throw (.fieldNotNumeric field)
      | some x => return x :: (← readFields (ask answer) fields) := by
  rw [readFields]
  exact if_neg hfield

theorem run_readFields_cons {result : Except Fault (List Float)}
    (hfield : HasNumber answer seen field x)
    (hfields : (readFields (ask answer) fields).run.run (seen ++ [field]) = (result, after)) :
    (readFields (ask answer) (field :: fields)).run.run seen =
      (result.map (x :: ·), after) := by
  obtain ⟨resolved, hanswer, hread⟩ := hfield.number
  rw [readFields_cons hfield.ne_nil, run_bind_ok (run_ask.trans (by rw [hanswer]))]
  simp only [hread]
  cases result with
  | error fault => exact run_bind_error hfields _
  | ok numbers => exact run_bind_ok hfields _

/-- Fields that have numbers are read, and then the others. -/
theorem run_readFields_append {result : Except Fault (List Float)}
    (hleft : HasNumbers answer seen left numbers)
    (hright : (readFields (ask answer) right).run.run (seen ++ left) = (result, after)) :
    (readFields (ask answer) (left ++ right)).run.run seen =
      (result.map (numbers ++ ·), after) := by
  induction left generalizing seen numbers with
  | nil =>
    obtain rfl := inReadingOrder_nil.1 hleft
    rw [List.append_nil] at hright
    cases result <;> exact hright
  | cons field left ih =>
    cases numbers with
    | nil => cases hleft.1
    | cons x numbers =>
      obtain ⟨hfield, hleft⟩ := inReadingOrder_cons.1 hleft
      rw [← List.singleton_append, ← List.append_assoc] at hright
      rw [List.cons_append, run_readFields_cons hfield (ih hleft hright)]
      cases result <;> rfl

theorem run_readFields (hfields : HasNumbers answer seen fields numbers) :
    (readFields (ask answer) fields).run.run seen = (.ok numbers, seen ++ fields) := by
  have hnone : (readFields (ask answer) []).run.run (seen ++ fields) = (.ok [], seen ++ fields) :=
    rfl
  have hrun := run_readFields_append hfields hnone
  rwa [List.append_nil, Except.map, List.append_nil] at hrun

theorem run_readFields_fault (hfield : FieldFault answer seen field fault calls) :
    (readFields (ask answer) (field :: right)).run.run seen = (.error fault, seen ++ calls) := by
  cases hfield with
  | empty hempty =>
    rw [readFields, if_pos hempty, List.append_nil]
    rfl
  | unanswered hne hanswer =>
    rw [readFields_cons hne]
    exact run_bind_error (run_ask.trans (by rw [hanswer])) _
  | notNumeric hne hanswer hread =>
    rw [readFields_cons hne, run_bind_ok (run_ask.trans (by rw [hanswer]))]
    simp only [hread]
    rfl

section Rows

variable {width : Nat} {row : List Text} {rows above below : List (List Text)}
  {lines : List (List Float)}

theorem readRows_cons (hlength : row.length = width) :
    readRows (ask answer) width (row :: rows) = do
      let line ← readFields (ask answer) row
      return line :: (← readRows (ask answer) width rows) := by
  rw [readRows]
  exact if_neg (not_not.2 hlength)

/-- Rows that have numbers are read, and then the others. -/
theorem run_readRows_append {result : Except Fault (List (List Float))}
    (habove : HasRows answer width seen above lines)
    (hbelow : (readRows (ask answer) width below).run.run (seen ++ above.flatten) =
      (result, after)) :
    (readRows (ask answer) width (above ++ below)).run.run seen =
      (result.map (lines ++ ·), after) := by
  induction above generalizing seen lines with
  | nil =>
    obtain rfl := inReadingOrder_nil.1 habove
    rw [List.flatten_nil, List.append_nil] at hbelow
    cases result <;> exact hbelow
  | cons row above ih =>
    cases lines with
    | nil => cases habove.1
    | cons line lines =>
      obtain ⟨hrow, habove⟩ := inReadingOrder_cons.1 habove
      rw [List.flatten_cons, ← List.append_assoc] at hbelow
      have hrest := ih habove hbelow
      rw [List.cons_append, readRows_cons hrow.length_eq,
        run_bind_ok (run_readFields hrow.numbers)]
      cases result with
      | error fault => exact run_bind_error hrest _
      | ok others => exact run_bind_ok hrest _

theorem run_readRows (hrows : HasRows answer width seen rows lines) :
    (readRows (ask answer) width rows).run.run seen = (.ok lines, seen ++ rows.flatten) := by
  have hnone : (readRows (ask answer) width []).run.run (seen ++ rows.flatten) =
      (.ok [], seen ++ rows.flatten) := rfl
  have hrun := run_readRows_append hrows hnone
  rwa [List.append_nil, Except.map, List.append_nil] at hrun

theorem HasRows.uniform (hrows : HasRows answer width seen rows lines) :
    ∀ line ∈ lines, line.length = width := by
  intro line hline
  obtain ⟨k, hk, rfl⟩ := List.getElem_of_mem hline
  have hk' : k < rows.length := hrows.1 ▸ hk
  have hrow := hrows.2 k rows[k] lines[k] (List.getElem?_eq_getElem hk')
    (List.getElem?_eq_getElem hk)
  exact hrow.numbers.1.symm.trans hrow.length_eq

theorem HasRows.width_eq (hrows : HasRows answer width seen rows lines) (hne : rows ≠ []) :
    (rows.headD []).length = width := by
  cases rows with
  | nil => exact absurd rfl hne
  | cons row rows =>
    cases lines with
    | nil => cases hrows.1
    | cons line lines => exact (inReadingOrder_cons.1 hrows).1.length_eq

theorem run_readRows_length (hlength : row.length ≠ width) (below : List (List Text))
    (seen : List Text) :
    (readRows (ask answer) width (row :: below)).run.run seen =
      (.error (.raggedRows width row.length), seen) := by
  rw [readRows, if_pos hlength]
  rfl

theorem run_readRows_field (hlength : (left ++ field :: right).length = width)
    (hleft : HasNumbers answer seen left numbers)
    (hfield : FieldFault answer (seen ++ left) field fault calls) (below : List (List Text)) :
    (readRows (ask answer) width ((left ++ field :: right) :: below)).run.run seen =
      (.error fault, seen ++ left ++ calls) := by
  rw [readRows_cons hlength]
  exact run_bind_error (run_readFields_append hleft (run_readFields_fault hfield)) _

end Rows

/-! ## Reading -/

section Reading

variable {separators : Separators} {text : Text} {rows : List (List Text)}
  {lines : List (List Float)}

theorem read_of_layout (hlayout : Layout separators text rows) :
    read separators (ask answer) text = do
      return Matrix.ofRows (rows.headD []).length
        (← readRows (ask answer) (rows.headD []).length rows) := by
  obtain ⟨interior, hinterior, rfl⟩ := layout_iff.1 hlayout
  rw [read, hinterior]

theorem run_read_of_hasRows (hlayout : Layout separators text rows)
    (hrows : HasRows answer (rows.headD []).length [] rows lines) :
    (read separators (ask answer) text).run.run [] =
      (.ok (Matrix.ofRows (rows.headD []).length lines), rows.flatten) := by
  rw [read_of_layout hlayout]
  exact run_bind_ok (run_readRows hrows) _

theorem run_read_of_firstFault (hfault : FirstFault answer separators text fault seen) :
    (read separators (ask answer) text).run.run [] = (.error fault, seen) := by
  cases hfault with
  | brackets htext =>
    have hnone : interior? text = none :=
      Option.eq_none_iff_forall_ne_some.2 fun interior hinterior =>
        htext interior (interior?_eq_some_iff.1 hinterior)
    rw [read, hnone]
    rfl
  | @length rows above below row lines hlayout hrows habove hlength =>
    have hrun := run_readRows_append habove (run_readRows_length hlength below _)
    rw [← hrows] at hrun
    rw [read_of_layout hlayout]
    exact run_bind_error hrun _
  | @field rows above below left right calls field lines numbers fault hlayout hrows habove hlength
      hleft hfield =>
    have hrun := run_readRows_append habove (run_readRows_field hlength hleft hfield below)
    rw [← hrows] at hrun
    rw [read_of_layout hlayout]
    exact run_bind_error hrun _

/-- Every text is either decoded or refused. -/
theorem exists_hasRows_or_firstFault (answer : List Text → Text → Except Fault Text)
    (separators : Separators) (text : Text) :
    (∃ rows lines, Layout separators text rows ∧
        HasRows answer (rows.headD []).length [] rows lines) ∨
      ∃ fault seen, FirstFault answer separators text fault seen := by
  cases hinterior : interior? text with
  | none =>
    refine .inr ⟨_, _, .brackets fun interior htext => ?_⟩
    rw [interior?_eq_some_iff.2 htext] at hinterior
    cases hinterior
  | some interior =>
    obtain ⟨rows, hlayout⟩ : ∃ rows, Layout separators text rows :=
      ⟨_, layout_iff.2 ⟨interior, hinterior, rfl⟩⟩
    -- the first row that has no numbers, and in it the first field that has none
    rcases inReadingOrder_or_first id (HasRow answer (rows.headD []).length) [] rows with
      ⟨lines, hlines⟩ | ⟨above, row, below, lines, hsplit, habove, hnone⟩
    · exact .inl ⟨rows, lines, hlayout, hlines⟩
    · right
      by_cases hlength : row.length = (rows.headD []).length
      · rw [List.flatMap_id, List.nil_append] at hnone
        rcases inReadingOrder_or_first (fun field => [field]) (HasNumber answer) above.flatten
          row with ⟨numbers, hnumbers⟩ | ⟨left, field, right, numbers, rfl, hleft, hfield⟩
        · exact absurd ⟨hlength, hnumbers⟩ (hnone numbers)
        · rw [List.flatMap_singleton'] at hfield
          obtain ⟨fault, calls, hfault⟩ := exists_fieldFault hfield
          exact ⟨_, _, .field hlayout hsplit habove hlength hleft hfault⟩
      · exact ⟨_, _, .length hlayout hsplit habove hlength⟩

/-- A text is decoded exactly if it is laid out in rows of one width and all fields have
numbers, which are the entries then; all fields have been asked for row by row.  It is
refused exactly with its first fault, and what has been asked for are the fields in front
of that, and the one at fault if it is not empty. -/
theorem run_read_iff (answer : List Text → Text → Except Fault Text) (separators : Separators)
    (text : Text) (seen : List Text) :
    (∀ m, (read separators (ask answer) text).run.run [] = (.ok m, seen) ↔
      ∃ rows, Layout separators text rows ∧ Decodes answer rows m ∧ seen = rows.flatten) ∧
    ∀ fault, (read separators (ask answer) text).run.run [] = (.error fault, seen) ↔
      FirstFault answer separators text fault seen := by
  refine ⟨fun m => ⟨fun hrun => ?_, ?_⟩, fun fault => ⟨fun hrun => ?_, run_read_of_firstFault⟩⟩
  · rcases exists_hasRows_or_firstFault answer separators text with
      ⟨rows, lines, hlayout, hrows⟩ | ⟨fault, calls, hfault⟩
    · rw [run_read_of_hasRows hlayout hrows] at hrun
      cases hrun
      refine ⟨rows, hlayout, decodes_iff.2 ?_, rfl⟩
      rwa [Matrix.width_ofRows, Matrix.rows_ofRows hrows.uniform]
    · rw [run_read_of_firstFault hfault] at hrun
      cases hrun
  · rintro ⟨rows, hlayout, hdecodes, rfl⟩
    have hrows := decodes_iff.1 hdecodes
    have hwidth := hrows.width_eq hlayout.rows_ne_nil
    have hm : Matrix.ofRows m.width m.rows = m := Matrix.ext rfl (Matrix.rows_ofRows m.uniform)
    rw [run_read_of_hasRows hlayout (hwidth.symm ▸ hrows), hwidth, hm]
  · rcases exists_hasRows_or_firstFault answer separators text with
      ⟨rows, lines, hlayout, hrows⟩ | ⟨first, calls, hfault⟩
    · rw [run_read_of_hasRows hlayout hrows] at hrun
      cases hrun
    · have hsame := (run_read_of_firstFault hfault).symm.trans hrun
      cases hsame
      exact hfault

end Reading

end Answers

end Literal

end MatrixCalculator
