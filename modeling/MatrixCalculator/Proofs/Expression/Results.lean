import MatrixCalculator.Proofs.Expression.Resolution

/-!
# Results as expressions

A result is text, so it can be typed in again.  It is the text of an operand all of
whose entries are numbers, whatever the expression was, and such a text goes through
all passes as it is: there is nothing in it but numerals, words for infinite numbers
and canonical literals.  The results are the texts that are their own values.
-/

namespace MatrixCalculator

open Expression Numeral Outcome Text

/-! ## What has been read -/

namespace Literal

variable {separators : Separators} {resolve : Text → Except Fault Text} {text : Text}
  {m : Matrix Float}

theorem length_readRows {width : Nat} {fields : List (List Text)} {rows : List (List Float)}
    (hread : readRows resolve width fields = .ok rows) : rows.length = fields.length := by
  induction fields generalizing rows with
  | nil =>
    cases hread
    rfl
  | cons row fields ih =>
    rw [readRows] at hread
    split at hread
    · cases hread
    · simp only [bind_eq_ok_iff, pure_eq_ok, Except.ok.injEq] at hread
      obtain ⟨first, -, others, hothers, rfl⟩ := hread
      rw [List.length_cons, List.length_cons, ih hothers]

/-- The fields of a row that has been read have numbers. -/
theorem exists_number_of_readFields {field : Text} {fields : List Text} {row : List Float}
    (hread : readFields resolve fields = .ok row) (hfield : field ∈ fields) :
    ∃ value x, resolve field = .ok value ∧ Numeral.read? value = some x := by
  induction fields generalizing row with
  | nil => cases hfield
  | cons first fields ih =>
    rw [readFields] at hread
    split at hread
    · cases hread
    obtain ⟨value, hvalue, hread⟩ := bind_eq_ok_iff.1 hread
    split at hread
    · cases hread
    next x hx =>
    rcases List.mem_cons.1 hfield with rfl | hfield
    · exact ⟨value, x, hvalue, hx⟩
    · obtain ⟨others, hothers, -⟩ := bind_eq_ok_iff.1 hread
      exact ih hothers hfield

theorem exists_resolve_of_readRows {field : Text} {width : Nat} {fields : List (List Text)}
    {rows : List (List Float)} (hread : readRows resolve width fields = .ok rows)
    (hfield : field ∈ fields.flatten) : ∃ value, resolve field = .ok value := by
  induction fields generalizing rows with
  | nil => cases hfield
  | cons row fields ih =>
    rw [readRows] at hread
    split at hread
    · cases hread
    · obtain ⟨first, hfirst, hread⟩ := bind_eq_ok_iff.1 hread
      obtain ⟨others, hothers, -⟩ := bind_eq_ok_iff.1 hread
      rcases List.mem_append.1 hfield with hfield | hfield
      · obtain ⟨value, -, hvalue, -⟩ := exists_number_of_readFields hfirst hfield
        exact ⟨value, hvalue⟩
      · exact ih hothers hfield

/-- The fields of a literal that has been read have values. -/
theorem exists_resolve_of_read {body field : Text}
    (hread : read separators resolve (opening ++ body ++ closing) = .ok m)
    (hfield : field ∈ (fieldsOf separators body).flatten) :
    ∃ value, resolve field = .ok value := by
  rw [read, interior?_brackets] at hread
  obtain ⟨rows, hrows, -⟩ := bind_eq_ok_iff.1 hread
  exact exists_resolve_of_readRows hrows hfield

/-- A literal that has been read has entries, and its first field has a value. -/
theorem hasEntries_of_read (hread : read separators resolve text = .ok m) :
    m.HasEntries ∧ ∃ field value, resolve field = .ok value := by
  rw [read] at hread
  split at hread
  · cases hread
  · next interior _ =>
    simp only [bind_eq_ok_iff, pure_eq_ok, Except.ok.injEq] at hread
    obtain ⟨rows, hrows, rfl⟩ := hread
    have hheight := length_readRows hrows
    obtain ⟨line, lines, hlines⟩ := List.exists_cons_of_ne_nil (splitOn_ne_nil rowBreak interior)
    obtain ⟨field, fields, hfields⟩ :=
      List.exists_cons_of_ne_nil (splitOn_ne_nil [separators.matrix] line)
    have hsplit : fieldsOf separators interior =
        (field :: fields) :: lines.map (splitOn [separators.matrix]) := by
      rw [fieldsOf, hlines, List.map_cons, hfields]
    rw [hsplit] at hrows hheight ⊢
    refine ⟨⟨?_, Nat.succ_pos _⟩, ?_⟩
    · rw [Matrix.height_ofRows, hheight]
      exact Nat.succ_pos _
    · rw [readRows, if_neg (fun hne => hne rfl)] at hrows
      simp only [bind_eq_ok_iff] at hrows
      obtain ⟨row, hrow, -⟩ := hrows
      obtain ⟨value, -, hvalue, -⟩ := exists_number_of_readFields hrow (List.mem_cons_self ..)
      exact ⟨field, value, hvalue⟩

end Literal

/-! ## Operands that are results -/

namespace Operand

/-- How many levels of an expression are below the text of an operand. -/
def levels : Operand → Nat
  | scalar _ => 0
  | matrix _ => 1

/-- Whether an operand can be the value of an expression with a limit of nesting. -/
structure IsResult (limit : Nat) (x : Operand) : Prop where
  hasEntries : x.HasEntries
  isNumber : x.IsNumber
  levels_le : x.levels ≤ limit

end Operand

namespace Expression

variable {limit : Nat} {separators : Separators} {text result : Text} {x : Operand}

theorem isResult_of_operand (hoperand : operand limit (resolve limit limit) text = .ok x)
    (hnumber : x.IsNumber) : x.IsResult limit := by
  rw [operand] at hoperand
  split at hoperand
  · obtain ⟨m, hread, rfl⟩ := map_eq_ok_iff.1 hoperand
    obtain ⟨hentries, field, value, hvalue⟩ := Literal.hasEntries_of_read hread
    refine ⟨hentries, hnumber, Nat.one_le_iff_ne_zero.2 ?_⟩
    rintro rfl
    cases hvalue
  · obtain ⟨y, -, rfl⟩ := map_eq_ok_iff.1 hoperand
    exact ⟨trivial, hnumber, Nat.zero_le limit⟩

/-- Whatever an expression is, its result is the text of an operand. -/
theorem exists_isResult_of_evaluate (hresult : evaluate limit separators text = .ok result) :
    ∃ x : Operand, x.IsResult limit ∧ x.write = result := by
  simp only [evaluate, bind_eq_ok_iff] at hresult
  obtain ⟨-, -, resolved, -, x, hoperand, hreport⟩ := hresult
  cases hcontains : contains notANumberWord x.write with
  | true =>
    rw [hcontains] at hreport
    cases hreport
  | false =>
    rw [hcontains] at hreport
    cases hreport
    exact ⟨x, isResult_of_operand hoperand (x.contains_write_iff.1 hcontains), rfl⟩

/-- The text of a result is read as the operand shown. -/
theorem operand_write_of_isResult (hx : x.IsResult limit) :
    operand limit (resolve limit limit) x.write = .ok x.shown := by
  cases x with
  | scalar x => exact operand_scalar hx.isNumber
  | matrix m =>
    obtain ⟨levels, rfl⟩ := Nat.exists_eq_add_of_le' hx.levels_le
    exact operand_matrix hx.hasEntries (resolve_write _ levels)

theorem keepsLiterals_of_isResult (hx : x.IsResult limit) :
    KeepsLiterals (resolve limit limit) x.write := by
  cases x with
  | scalar x => exact keepsLiterals_of_not_mem (not_mem_number x (by decide))
  | matrix m =>
    obtain ⟨levels, rfl⟩ := Nat.exists_eq_add_of_le' hx.levels_le
    exact keepsLiterals_operand hx.hasEntries (resolve_write _ levels)

/-- The text of a result is an expression that is its own value. -/
theorem evaluate_write (hx : x.IsResult limit) :
    evaluate limit Separators.canonical x.write = .ok x.write := by
  obtain ⟨hopen, hclose⟩ := paren_not_mem_write x
  have hcontains : contains notANumberWord x.write = false := x.contains_write_iff.2 hx.isNumber
  rw [evaluate_eq_bind (fits_operand x none) (keepsLiterals_of_isResult hx),
    passes_eq (keepsLiterals_of_isResult hx) (fits_operand x none) hopen hclose,
    reduceText_of_atom (split_write x) rfl, ok_bind, operand_write_of_isResult hx, ok_bind,
    x.write_shown, hcontains]
  rfl

/-- A result is an expression that is its own value, also where the expression has been
typed with the separators of a locale. -/
theorem evaluate_idempotent (hresult : evaluate limit separators text = .ok result) :
    evaluate limit Separators.canonical result = .ok result := by
  obtain ⟨x, hx, rfl⟩ := exists_isResult_of_evaluate hresult
  exact evaluate_write hx

theorem evaluate_infinite_entry :
    evaluate 64 Separators.canonical "[[1÷0,-1e-7]]×(1+1)".toList =
        .ok "[[Infinity,-2e-7]]".toList ∧
      evaluate 64 Separators.canonical "[[Infinity,-2e-7]]".toList =
        .ok "[[Infinity,-2e-7]]".toList := by
  have hresult : evaluate 64 Separators.canonical "[[1÷0,-1e-7]]×(1+1)".toList =
      .ok "[[Infinity,-2e-7]]".toList := by decide +kernel
  exact ⟨hresult, evaluate_idempotent hresult⟩

end Expression

end MatrixCalculator
