import MatrixCalculator.Proofs.Display
import MatrixCalculator.Proofs.Expression.Results

/-!
# Literals with the characters of a locale

A literal that is displayed with the separators of a decimal point can be typed in
again.  Entering drops grouping marks, and the grouping mark of nearly every decimal
point is the comma, which also stands between the columns then.  So a displayed literal
is the canonical one again under the point and under the comma, whose columns are
divided by semicolons, and under all other characters only if it has a single column.
-/

namespace MatrixCalculator

open Expression Numeral Outcome Text

namespace Separators

/-- Whether a character can be a decimal point: it is no part of numerals and words, no
blank and none of the characters with another meaning between them. -/
def MayBePoint (c : Char) : Prop :=
  c.isDigit = false ∧ c.isAlpha = false ∧ isBlank c = false ∧
    c ∉ [Symbol.minus, Symbol.times, Symbol.divide] ++ "+-*/^()[];".toList

instance (c : Char) : Decidable (MayBePoint c) := inferInstanceAs (Decidable (_ ∧ _))

@[simp]
theorem decimalPoint_ofDecimalPoint (point : Char) :
    (ofDecimalPoint point).decimalPoint = point := by
  rw [ofDecimalPoint]
  split <;> rfl

/-- Every decimal point but the comma leaves the comma to groups and to columns. -/
theorem ofDecimalPoint_of_ne {point : Char} (hcomma : point ≠ ',') :
    ofDecimalPoint point = ⟨point, ',', ' ', ' ', ','⟩ := if_neg hcomma

end Separators

/-! ## Entering with other characters -/

namespace Literal

variable {point : Char} {m : Matrix Float} {separators other : Separators}
  {lines : List Text} {evaluate : Text → Except Fault Text}

/-- A literal as it is displayed with the separators of a decimal point. -/
def display (point : Char) (m : Matrix Float) : Text :=
  Display.localize (.ofDecimalPoint point) (Separators.ofDecimalPoint point).matrix (write m)

theorem display_eq_map (hpoint : point ≠ '.') :
    display point m =
      (write m).map (Display.localChar point (Separators.ofDecimalPoint point).matrix) := by
  have hcanonical : (Separators.ofDecimalPoint point).isCanonical = false := by
    refine decide_eq_false fun heq => hpoint ?_
    rw [← Separators.decimalPoint_ofDecimalPoint point, heq]
    rfl
  rw [display, Display.localize, hcanonical, Separators.decimalPoint_ofDecimalPoint]
  rfl

theorem mem_valueAlphabet (m : Matrix Float) : ∀ c ∈ write m, c ∈ valueAlphabet :=
  fun _ hmem => by_contra fun hc => not_mem_operand (.matrix m) hc hmem

/-- Semicolons between columns, where there have been commas. -/
def semicolon (c : Char) : Char := if c = ',' then ';' else c

theorem enter_display_comma (m : Matrix Float) :
    Display.enter (.ofDecimalPoint ',') (display ',' m) = (write m).map semicolon := by
  have hchars : ∀ c ∈ valueAlphabet,
      Display.isLayout (.ofDecimalPoint ',') (Display.localChar ',' ';' c) = !true ∧
        Display.enterChar (.ofDecimalPoint ',') (Display.localChar ',' ';' c) = semicolon c :=
    List.all_iff_forall_prop.1 (by decide)
  have hentered := Display.enter_map (p := fun _ => true)
    (fun c hc => (hchars c (mem_valueAlphabet m c hc)).1)
    fun c hc _ => (hchars c (mem_valueAlphabet m c hc)).2
  rw [List.filter_true] at hentered
  rw [display_eq_map (by decide)]
  exact hentered

/-- Under any other decimal point a displayed literal is entered without its commas. -/
theorem enter_display_of_ne (hpoint : Separators.MayBePoint point) (hdot : point ≠ '.')
    (hcomma : point ≠ ',') (m : Matrix Float) :
    Display.enter (.ofDecimalPoint point) (display point m) = (write m).filter (· != ',') := by
  have hothers : ∀ c ∈ valueAlphabet, c ≠ '.' → c ≠ ',' → ¬Separators.MayBePoint c ∧
      isBlank c = false ∧ c ≠ Symbol.minus ∧ c ≠ '*' ∧ c ≠ '/' :=
    List.all_iff_forall_prop.1 (by decide)
  have hsymbols : point ≠ Symbol.minus ∧ point ≠ '*' ∧ point ≠ '/' := by
    refine ⟨?_, ?_, ?_⟩
    all_goals
      rintro rfl
      exact absurd hpoint (by decide)
  have hlayout : ∀ c ∈ write m,
      Display.isLayout ⟨point, ',', ' ', ' ', ','⟩ (Display.localChar point ',' c) =
        !(c != ',') := by
    intro c hc
    by_cases hpoint' : c = '.'
    · subst hpoint'
      simp [Display.isLayout, Display.localChar, hpoint.2.2.1, hcomma]
    · by_cases hcolumn : c = ','
      · subst hcolumn
        simp [Display.isLayout, Display.localChar, hdot]
      · obtain ⟨-, hblank, -⟩ := hothers c (mem_valueAlphabet m c hc) hpoint' hcolumn
        have hkept : (c != ',') = true := bne_iff_ne.2 hcolumn
        simp [Display.isLayout, Display.localChar, hpoint', hcolumn, hblank, hkept]
  have hchar : ∀ c ∈ write m, (c != ',') = true →
      Display.enterChar ⟨point, ',', ' ', ' ', ','⟩ (Display.localChar point ',' c) = id c := by
    intro c hc hcolumn
    rw [bne_iff_ne] at hcolumn
    by_cases hpoint' : c = '.'
    · subst hpoint'
      simp [Display.enterChar, Display.localChar, hsymbols, hdot]
    · obtain ⟨hother, -, hminus, htimes, hdivide⟩ :=
        hothers c (mem_valueAlphabet m c hc) hpoint' hcolumn
      have hne : c ≠ point := by
        rintro rfl
        exact hother hpoint
      simp [Display.enterChar, Display.localChar, hpoint', hcolumn, hminus, htimes, hdivide, hne]
  have hentered := Display.enter_map hlayout hchar
  rw [List.map_id] at hentered
  rw [display_eq_map hdot, Separators.ofDecimalPoint_of_ne hcomma]
  exact hentered

/-! ## Reading rows that are written otherwise -/

def ofLines (lines : List Text) : Text := opening ++ rowBreak.intercalate lines ++ closing

theorem write_eq_ofLines (hm : m.HasEntries) : write m = ofLines (m.rows.map rowText) :=
  write_eq (List.length_pos_iff.1 hm.1)

theorem ofLines_of_append {f : Text → Text} (hnil : f [] = [])
    (happend : ∀ left right, f (left ++ right) = f left ++ f right)
    (hbrackets : f opening = opening ∧ f rowBreak = rowBreak ∧ f closing = closing) :
    f (ofLines lines) = ofLines (lines.map f) := by
  obtain ⟨hopening, hbreak, hclosing⟩ := hbrackets
  rw [ofLines, happend, happend, intercalate_of_append hnil happend, hopening, hbreak, hclosing]
  rfl

/-- The first pass reads a literal once and writes it. -/
theorem canonicalizeLiterals_ofLines (hne : lines ≠ []) (hlines : ∀ line ∈ lines, ']' ∉ line) :
    canonicalizeLiterals separators evaluate (ofLines lines) =
      write <$> read separators evaluate (ofLines lines) := by
  have hopen : cut? opening (ofLines lines) =
      some ([], rowBreak.intercalate lines ++ (closing ++ [])) := by
    rw [ofLines, List.append_assoc, List.append_nil]
    exact cut?_mark (List.cons_ne_nil _ _)
  have hnil : canonicalizeLiterals separators evaluate [] = .ok [] :=
    canonicalizeLiterals_of_no_opening rfl
  rw [canonicalizeLiterals_of_cut? hopen (cut?_closing_rows hne hlines), hnil]
  simp [ofLines, map_eq_pure_bind]

theorem interior?_ofLines (lines : List Text) :
    interior? (ofLines lines) = some (rowBreak.intercalate lines) := interior?_brackets _

theorem fieldsOf_lines (hne : lines ≠ []) (hlines : ∀ line ∈ lines, ']' ∉ line) :
    fieldsOf separators (rowBreak.intercalate lines) =
      lines.map (splitOn [separators.matrix]) := by
  rw [fieldsOf, rowBreak, splitOn_intercalate hne hlines]

/-- Without column marks every row of a literal is a single field. -/
theorem width_of_read_ofLines (hne : lines ≠ []) (hlines : ∀ line ∈ lines, ']' ∉ line)
    (hcolumns : ∀ line ∈ lines, separators.matrix ∉ line)
    (hread : read separators evaluate (ofLines lines) = .ok m) : m.width = 1 := by
  obtain ⟨line, others, rfl⟩ := List.exists_cons_of_ne_nil hne
  rw [read, interior?_ofLines] at hread
  simp only [fieldsOf_lines hne hlines, bind_eq_ok_iff, pure_eq_ok, Except.ok.injEq] at hread
  obtain ⟨rows, -, rfl⟩ := hread
  rw [Matrix.width_ofRows, List.map_cons, splitOn_eq_singleton (hcolumns line (by simp))]
  rfl

/-- A row with commas turned into semicolons. -/
theorem map_semicolon_rowText (row : List Float) :
    (rowText row).map semicolon = [';'].intercalate (row.map Numeral.write) := by
  have hfield : ∀ x, (Numeral.write x).map semicolon = Numeral.write x := by
    intro x
    refine (List.map_congr_left fun c hc => ?_).trans (List.map_id _)
    refine if_neg ?_
    rintro rfl
    exact not_mem_number x (by decide) hc
  rw [rowText, intercalate_of_append (f := List.map semicolon) rfl fun _ _ => List.map_append]
  simp [hfield, Function.comp_def, semicolon]

theorem map_semicolon_write (hm : m.HasEntries) : (write m).map semicolon =
    ofLines ((m.rows.map rowText).map (List.map semicolon)) := by
  rw [write_eq_ofLines hm]
  exact ofLines_of_append (f := List.map semicolon) rfl (fun _ _ => List.map_append) (by decide)

/-- The columns of a written literal are found between semicolons as well. -/
theorem canonicalizeLiterals_semicolons (hm : m.HasEntries) :
    canonicalizeLiterals (.ofDecimalPoint ',') evaluate ((write m).map semicolon) =
      write <$> read .canonical evaluate (write m) := by
  have hrows : m.rows ≠ [] := List.length_pos_iff.1 hm.1
  have hne : (m.rows.map rowText).map (List.map semicolon) ≠ [] := by simpa using hrows
  have hlines : ∀ line ∈ (m.rows.map rowText).map (List.map semicolon), ']' ∉ line := by
    intro line hline hmem
    obtain ⟨text, htext, rfl⟩ := List.mem_map.1 hline
    obtain ⟨row, -, rfl⟩ := List.mem_map.1 htext
    obtain ⟨c, hc, hbracket⟩ := List.mem_map.1 hmem
    rw [semicolon] at hbracket
    split at hbracket
    · cases hbracket
    · exact bracket_not_mem_rowText row (hbracket ▸ hc)
  have hrow : ∀ row ∈ m.rows,
      splitOn [';'] ((rowText row).map semicolon) = row.map Numeral.write := by
    intro row hrow
    have hlength := m.uniform row hrow
    rw [map_semicolon_rowText]
    refine splitOn_intercalate ?_ fun field hfield => ?_
    · rintro hnil
      rw [List.map_eq_nil_iff.1 hnil, List.length_nil] at hlength
      exact hm.2.ne hlength
    · obtain ⟨x, -, rfl⟩ := List.mem_map.1 hfield
      exact not_mem_number x (by decide)
  have hfields : fieldsOf (.ofDecimalPoint ',')
      (rowBreak.intercalate ((m.rows.map rowText).map (List.map semicolon))) =
      m.rows.map (List.map Numeral.write) := by
    rw [fieldsOf_lines hne hlines, List.map_map, List.map_map]
    exact List.map_congr_left hrow
  rw [map_semicolon_write hm, canonicalizeLiterals_ofLines hne hlines, read, read,
    interior?_ofLines, interior?_write hrows]
  simp only [hfields, fieldsOf_write hrows hm.2]

/-- Under a decimal point that leaves the comma to columns a written literal is read. -/
theorem canonicalizeLiterals_write (hm : m.HasEntries) (hmatrix : separators.matrix = ',') :
    canonicalizeLiterals separators evaluate (write m) =
      write <$> read .canonical evaluate (write m) := by
  have hne : m.rows.map rowText ≠ [] := by simpa using List.length_pos_iff.1 hm.1
  have hlines : ∀ line ∈ m.rows.map rowText, ']' ∉ line := by
    intro line hline
    obtain ⟨row, -, rfl⟩ := List.mem_map.1 hline
    exact bracket_not_mem_rowText row
  rw [write_eq_ofLines hm, canonicalizeLiterals_ofLines hne hlines]
  simp only [read, fieldsOf, hmatrix]
  rfl

theorem filter_comma_write (hm : m.HasEntries) : (write m).filter (· != ',') =
    ofLines ((m.rows.map rowText).map (List.filter (· != ','))) := by
  rw [write_eq_ofLines hm]
  exact ofLines_of_append (f := List.filter (· != ',')) rfl
    (fun left right => List.filter_append left right) (by decide)

/-- Without the commas every row is a single field, whatever it was. -/
theorem exists_of_canonicalizeLiterals_filter {canonical : Text} (hm : m.HasEntries)
    (hmatrix : separators.matrix = ',') (hcanonical : canonicalizeLiterals separators evaluate
      ((write m).filter (· != ',')) = .ok canonical) :
    ∃ single : Matrix Float, single.HasEntries ∧ single.width = 1 ∧ write single = canonical := by
  have hne : (m.rows.map rowText).map (List.filter (· != ',')) ≠ [] := by
    simpa using List.length_pos_iff.1 hm.1
  have hlines : ∀ c, c = ']' ∨ c = ',' →
      ∀ line ∈ (m.rows.map rowText).map (List.filter (· != ',')), c ∉ line := by
    rintro c hc line hline hmem
    obtain ⟨text, htext, rfl⟩ := List.mem_map.1 hline
    obtain ⟨row, -, rfl⟩ := List.mem_map.1 htext
    obtain ⟨hmem, hcomma⟩ := List.mem_filter.1 hmem
    rcases hc with rfl | rfl
    · exact bracket_not_mem_rowText row hmem
    · exact absurd hcomma (by decide)
  rw [filter_comma_write hm, canonicalizeLiterals_ofLines hne (hlines _ (.inl rfl)),
    map_eq_ok_iff] at hcanonical
  obtain ⟨single, hread, rfl⟩ := hcanonical
  exact ⟨single, (hasEntries_of_read hread).1, width_of_read_ofLines hne (hlines _ (.inl rfl))
    (hmatrix ▸ hlines _ (.inr rfl)) hread, rfl⟩

/-- Commas stand between the columns and nowhere else. -/
theorem comma_mem_write_iff (hm : m.HasEntries) : ',' ∈ write m ↔ m.width ≠ 1 := by
  have hfield : ∀ x, ',' ∉ Numeral.write x := fun x => not_mem_number x (by decide)
  have hmem : ',' ∈ write m ↔ ∃ row ∈ m.rows, ',' ∈ rowText row := by
    simp [write, writeRow_eq]
  rw [hmem]
  constructor
  · rintro ⟨row, hrow, hcomma⟩ hwidth
    obtain ⟨x, rfl⟩ := List.length_eq_one_iff.1 ((m.uniform row hrow).trans hwidth)
    exact hfield x (by simpa [rowText] using hcomma)
  · intro hwidth
    obtain ⟨row, others, hrows⟩ := List.exists_cons_of_ne_nil (List.length_pos_iff.1 hm.1)
    have hrow : row ∈ m.rows := by simp [hrows]
    have hlength := m.uniform row hrow
    refine ⟨row, hrow, ?_⟩
    cases row with
    | nil => exact absurd hlength hm.2.ne
    | cons x row =>
      cases row with
      | nil => exact absurd hlength.symm hwidth
      | cons y row =>
        rw [rowText, intercalate_map_cons]
        simp

theorem filter_comma_eq (hm : m.HasEntries) (hwidth : m.width = 1) :
    (write m).filter (· != ',') = write m := by
  have hcomma : ',' ∉ write m := fun hmem => (comma_mem_write_iff hm).1 hmem hwidth
  refine List.filter_eq_self.2 fun c hc => bne_iff_ne.2 ?_
  rintro rfl
  exact hcomma hc

end Literal

/-! ## Evaluating what is displayed -/

namespace Expression

variable {limit : Nat} {separators : Separators} {text : Text} {m : Matrix Float} {point : Char}

/-- The value of an expression that is a literal, with whatever characters it is typed. -/
theorem evaluate_of_canonicalizeLiterals (hm : m.HasEntries) (hlimit : 1 ≤ limit)
    (hcanonical : canonicalizeLiterals separators (resolve limit limit)
      (Display.enter separators text) = .ok (Literal.write m)) :
    evaluate limit separators text =
      if contains notANumberWord (Literal.write m) then .error .notANumber
      else .ok (Literal.write m) := by
  obtain ⟨levels, rfl⟩ := Nat.exists_eq_add_of_le' hlimit
  have hfields := resolve_write (levels + 1) levels
  have hkeeps : KeepsLiterals (resolve (levels + 1) (levels + 1)) (Literal.write m) :=
    keepsLiterals_write hm.1 hm.2 hfields
  obtain ⟨hopen, hclose⟩ := paren_not_mem_write (.matrix m)
  have hpasses : passes (levels + 1) (resolve (levels + 1) (levels + 1)) (Literal.write m) =
      .ok (Literal.write m) := by
    rw [passes_eq hkeeps (fits_operand (.matrix m) none) hopen hclose]
    exact reduceText_of_atom (split_write (.matrix m)) rfl
  rw [evaluate, hcanonical, ok_bind, resolve, hpasses, ok_bind, operand_matrix hm hfields, ok_bind,
    Operand.write, Literal.write_map_shown]
  rfl

/-- A literal that is displayed with the characters of a decimal point has its own value
again where the point is the canonical one or the comma.  Under all others it does if it
has a single column, and no value or another one if it has more. -/
theorem evaluate_display_iff (hpoint : Separators.MayBePoint point)
    (hm : (Operand.matrix m).IsResult limit) :
    evaluate limit (.ofDecimalPoint point) (Literal.display point m) = .ok (Literal.write m) ↔
      point = '.' ∨ point = ',' ∨ m.width = 1 := by
  have hentries : m.HasEntries := hm.hasEntries
  have hlimit : 1 ≤ limit := hm.levels_le
  have hnumber : contains notANumberWord (Literal.write m) = false :=
    (Operand.matrix m).contains_write_iff.2 hm.isNumber
  have hread : Literal.write <$> Literal.read .canonical (resolve limit limit) (Literal.write m) =
      .ok (Literal.write m) := by
    obtain ⟨levels, rfl⟩ := Nat.exists_eq_add_of_le' hlimit
    rw [Literal.read_write hentries.1 hentries.2 (resolve_write _ levels), map_ok,
      Literal.write_map_shown]
  have hvalue : canonicalizeLiterals (.ofDecimalPoint point) (resolve limit limit)
      (Display.enter (.ofDecimalPoint point) (Literal.display point m)) = .ok (Literal.write m) →
      evaluate limit (.ofDecimalPoint point) (Literal.display point m) = .ok (Literal.write m) := by
    intro hcanonical
    rw [evaluate_of_canonicalizeLiterals hentries hlimit hcanonical, hnumber]
    rfl
  by_cases hdot : point = '.'
  · subst hdot
    exact iff_of_true (evaluate_write hm) (.inl rfl)
  by_cases hcomma : point = ','
  · subst hcomma
    refine iff_of_true (hvalue ?_) (.inr (.inl rfl))
    rw [Literal.enter_display_comma, Literal.canonicalizeLiterals_semicolons hentries, hread]
  have hentered := Literal.enter_display_of_ne hpoint hdot hcomma m
  have hmatrix : (Separators.ofDecimalPoint point).matrix = ',' := by
    rw [Separators.ofDecimalPoint_of_ne hcomma]
  simp only [hdot, hcomma, false_or]
  constructor
  · intro hresult
    obtain ⟨canonical, hcanonical, -⟩ := bind_eq_ok_iff.1 hresult
    rw [hentered] at hcanonical
    obtain ⟨single, hsingle, hwidth, rfl⟩ :=
      Literal.exists_of_canonicalizeLiterals_filter hentries hmatrix hcanonical
    rw [← hentered] at hcanonical
    rw [evaluate_of_canonicalizeLiterals hsingle hlimit hcanonical] at hresult
    split at hresult
    · cases hresult
    · by_contra hne
      have hmem := (Literal.comma_mem_write_iff hentries).2 hne
      rw [← Except.ok.inj hresult, Literal.comma_mem_write_iff hsingle] at hmem
      exact hmem hwidth
  · intro hwidth
    refine hvalue ?_
    rw [hentered, Literal.filter_comma_eq hentries hwidth,
      Literal.canonicalizeLiterals_write hentries hmatrix, hread]

/-- In the locales with a comma for decimals the columns are found. -/
theorem evaluate_display_comma :
    let m : Matrix Float := Matrix.ofRows 2 [[1.5, -2], [0, 1e-7]]
    Literal.display ',' m = "[[1,5;-2][0;1e-7]]".toList ∧
      evaluate 64 (.ofDecimalPoint ',') "[[1,5;-2][0;1e-7]]".toList =
        .ok "[[1.5,-2][0,1e-7]]".toList := by
  intro m
  have hdisplay : Literal.display ',' m = "[[1,5;-2][0;1e-7]]".toList := by decide +kernel
  have hwrite : Literal.write m = "[[1.5,-2][0,1e-7]]".toList := by decide +kernel
  have hresult : (Operand.matrix m).IsResult 64 :=
    ⟨(by decide : m.HasEntries), by decide, by decide⟩
  refine ⟨hdisplay, ?_⟩
  rw [← hdisplay, ← hwrite]
  exact (evaluate_display_iff (by decide) hresult).2 (.inr (.inl rfl))

/-- Under a colon two columns become one. -/
theorem evaluate_display_colon :
    let m : Matrix Float := Matrix.ofRows 2 [[1, 2]]
    Separators.MayBePoint ':' ∧ (Operand.matrix m).IsResult 64 ∧
      Literal.display ':' m = "[[1,2]]".toList ∧ Literal.write m = "[[1,2]]".toList ∧
      evaluate 64 (.ofDecimalPoint ':') (Literal.display ':' m) = .ok "[[12]]".toList := by
  intro m
  refine ⟨by decide, ⟨(by decide : m.HasEntries), by decide, by decide⟩, ?_⟩
  decide +kernel

end Expression

end MatrixCalculator
