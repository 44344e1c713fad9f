import MatrixCalculator.Proofs.Expression.Localized
import MatrixCalculator.Proofs.Limits
import MatrixCalculator.Proofs.Scalar.Scanning

/-!
# Expressions in fields

The passes over an expression may leave a single operand as it is, and what is left is
read in two ways: the value of an expression is the one of a scalar expression, and the
value of a field is the one of a plain number.  Where both readers find a value it is
the same, so a field has the value of the expression in it or none.
-/

namespace MatrixCalculator

open Expression Numeral Outcome Text

/-! ## Literals of one field -/

namespace Literal

variable {separators : Separators} {evaluate : Text → Except Fault Text} {field : Text}

def single (x : Float) : Matrix Float := Matrix.ofRows 1 [[x]]

theorem single_hasEntries (x : Float) : (single x).HasEntries := ⟨Nat.one_pos, Nat.one_pos⟩

theorem rows_single (x : Float) : (single x).rows = [[x]] := Matrix.rows_ofRows (by simp)

theorem write_single (x : Float) : write (single x) = opening ++ Numeral.write x ++ closing := by
  rw [write, rows_single]
  simp [writeRow, opening, closing]

theorem contains_write_single (x : Float) :
    contains notANumberWord (write (single x)) = x.isNaN := by
  have hnumber : contains notANumberWord (write (single x)) = false ↔ x.isNaN = false := by
    rw [← Operand.write.eq_2, Operand.contains_write_iff, Operand.IsNumber, Matrix.entries,
      rows_single]
    simp
  cases hx : x.isNaN with
  | true =>
    rw [hx] at hnumber
    exact Bool.eq_true_of_not_eq_false fun h => Bool.noConfusion (hnumber.1 h)
  | false => exact hnumber.2 hx

/-- A literal of one field is canonical as soon as the field is. -/
theorem canonicalizeLiterals_field (hne : field ≠ []) (hbracket : ']' ∉ field)
    (hcolumn : separators.matrix ∉ field) :
    canonicalizeLiterals separators evaluate (opening ++ field ++ closing) = (do
      match read? (← evaluate field) with
      | none => .error (.fieldNotNumeric field)
      | some x => .ok (write (single x))) := by
  have hlines : ∀ line ∈ [field], ']' ∉ line := by simpa using hbracket
  have htext : opening ++ field ++ closing = ofLines [field] := by
    rw [ofLines, List.intercalate_singleton]
  have hfields : fieldsOf separators (rowBreak.intercalate [field]) = [[field]] := by
    rw [fieldsOf_lines (List.cons_ne_nil _ _) hlines, List.map_singleton,
      splitOn_eq_singleton hcolumn]
  rw [htext, canonicalizeLiterals_ofLines (List.cons_ne_nil _ _) hlines, read,
    interior?_ofLines]
  simp only [hfields]
  cases hvalue : evaluate field with
  | error cause => simp [readRows, readFields, hne, hvalue]
  | ok value =>
    cases hread : read? value with
    | none => simp [readRows, readFields, hne, hvalue, hread]
    | some x => simp [readRows, readFields, hne, hvalue, hread, single]

end Literal

namespace Expression

variable {limit larger : Nat} {field value : Text}

/-- The value of a literal of one field is the one that the field is read as. -/
theorem evaluate_single (hlimit : 1 ≤ limit)
    (hfield : ∀ c ∈ [']', ','], c ∉ Display.enter Separators.canonical field)
    (hne : Display.enter Separators.canonical field ≠ []) :
    evaluate limit Separators.canonical (Literal.opening ++ field ++ Literal.closing) = (do
      match read? (← resolve limit limit (Display.enter Separators.canonical field)) with
      | none => .error (.fieldNotNumeric (Display.enter Separators.canonical field))
      | some x =>
        if x.isNaN then .error .notANumber
        else .ok (Literal.opening ++ write x ++ Literal.closing)) := by
  have hentered : Display.enter Separators.canonical
      (Literal.opening ++ field ++ Literal.closing) =
        Literal.opening ++ Display.enter Separators.canonical field ++ Literal.closing := by
    rw [Display.enter_append, Display.enter_append]
    rfl
  have hcanonical : canonicalizeLiterals Separators.canonical (resolve limit limit)
      (Literal.opening ++ Display.enter Separators.canonical field ++ Literal.closing) = _ :=
    Literal.canonicalizeLiterals_field hne (hfield ']' (by decide)) (hfield ',' (by decide))
  cases hresolved : resolve limit limit (Display.enter Separators.canonical field) with
  | error cause =>
    rw [evaluate, hentered, hcanonical, hresolved]
    rfl
  | ok resolved =>
    rw [hresolved, ok_bind] at hcanonical
    cases hread : read? resolved with
    | none =>
      rw [hread] at hcanonical
      rw [evaluate, hentered, hcanonical, ok_bind, hread]
      rfl
    | some x =>
      rw [hread] at hcanonical
      rw [← hentered] at hcanonical
      rw [evaluate_of_canonicalizeLiterals (Literal.single_hasEntries x) hlimit hcanonical,
        Literal.contains_write_single, Literal.write_single, ok_bind, hread]

/-- An empty text has no value. -/
theorem ne_nil_of_evaluate
    (hvalue : evaluate limit Separators.canonical field = .ok value) :
    Display.enter Separators.canonical field ≠ [] := by
  intro hempty
  have hquiet : Follows IsQuiet none [] := trivial
  have hpasses : passes limit (resolve limit limit) [] = .ok [] := by
    rw [passes_eq (keepsLiterals_of_not_mem List.not_mem_nil) hquiet List.not_mem_nil
      List.not_mem_nil]
    exact reduceText_of_atom rfl rfl
  have hcanonical : canonicalizeLiterals Separators.canonical (resolve limit limit) [] = .ok [] :=
    canonicalizeLiterals_of_no_opening rfl
  have hoperand : operand limit (resolve limit limit) [] = .error .unexpectedEnd := by
    rw [operand_of_no_literal List.not_mem_nil, Scalar.evaluate, Scalar.lexemes,
      Scalar.lexemesFrom_nil]
    rfl
  rw [evaluate, hempty, hcanonical, ok_bind, resolve, hpasses, ok_bind, hoperand] at hvalue
  cases hvalue

theorem read?_bracket (text : Text) : read? ('[' :: text) = none := by
  simp [read?, readUnsigned?, readDecimal?]

/-- What an operand is read as, if a field is read as a number there. -/
theorem eq_of_operand {evaluate : Text → Except Fault Text} {resolved : Text} {x : Operand}
    {y : Float} (hoperand : operand limit evaluate resolved = .ok x)
    (hread : read? resolved = some y) : x = .scalar y := by
  have hopen : startsWith Literal.opening resolved = false := by
    rw [← Bool.not_eq_true, startsWith, Option.isSome_iff_exists]
    rintro ⟨rest, hrest⟩
    rw [after?_eq_some_iff.1 hrest, Literal.opening, List.cons_append, read?_bracket] at hread
    cases hread
  rw [operand, hopen, if_neg Bool.false_ne_true, map_eq_ok_iff] at hoperand
  obtain ⟨z, hz, rfl⟩ := hoperand
  rw [Scalar.eq_of_read? hz hread]

/-- An expression that has a value is the field of a literal of that value, if the passes
leave a plain number of it, and else is refused as a field. -/
theorem evaluate_as_field (hfield : ∀ c ∈ ['[', ']', ','], c ∉ field)
    (hvalue : evaluate limit Separators.canonical field = .ok value) (hlarger : limit < larger) :
    ∃ resolved, resolve limit (limit + 1) (Display.enter Separators.canonical field) =
        .ok resolved ∧
      evaluate larger Separators.canonical (Literal.opening ++ field ++ Literal.closing) =
        if (read? resolved).isSome then .ok (Literal.opening ++ value ++ Literal.closing)
        else .error (.fieldNotNumeric (Display.enter Separators.canonical field)) := by
  have hentered : ∀ c ∈ ['[', ']', ','], c ∉ Display.enter Separators.canonical field := by
    have hmade : ∀ c ∈ ['[', ']', ','], c ∉ ['-', Symbol.times, Symbol.divide, '.'] :=
      List.all_iff_forall_prop.1 (by decide)
    exact fun c hc hmem => (Display.mem_enter hmem).elim (hfield c hc) (hmade c hc)
  have hcanonical : canonicalizeLiterals Separators.canonical (resolve limit limit)
      (Display.enter Separators.canonical field) =
        .ok (Display.enter Separators.canonical field) :=
    (keepsLiterals_of_not_mem (hentered '[' (by decide))).canonicalizeLiterals_eq
  have hne := ne_nil_of_evaluate hvalue
  rw [evaluate, hcanonical, ok_bind] at hvalue
  obtain ⟨resolved, hresolved, hvalue⟩ := bind_eq_ok_iff.1 hvalue
  obtain ⟨x, hoperand, hvalue⟩ := bind_eq_ok_iff.1 hvalue
  -- with more levels below it the field is resolved to the same text
  have hlevel : resolve larger larger (Display.enter Separators.canonical field) = .ok resolved :=
    (resolve_upTo hlarger.le hlarger _).eq_ok hresolved
  refine ⟨resolved, hresolved, ?_⟩
  rw [evaluate_single (Nat.one_le_of_lt hlarger) (fun c hc => hentered c (by simp_all)) hne,
    hlevel, ok_bind]
  cases hread : read? resolved with
  | none => rfl
  | some y =>
    obtain rfl := eq_of_operand hoperand hread
    split at hvalue
    · cases hvalue
    · next hcontains =>
      obtain rfl : write y = value := Except.ok.inj hvalue
      have hnumber : y.isNaN = false :=
        (Operand.contains_write_iff (.scalar y)).1 (Bool.eq_false_of_not_eq_true hcontains)
      simp only [hnumber, Bool.false_eq_true, if_false, Option.isSome_some, if_true]

/-- A chain leaves a number, so it may stand in a field. -/
theorem evaluate_product_in_field :
    evaluate 1 Separators.canonical "(1+2)×50%".toList = .ok "1.5".toList ∧
      evaluate 2 Separators.canonical "[[(1+2)×50%]]".toList = .ok "[[1.5]]".toList := by
  have hvalue : evaluate 1 Separators.canonical "(1+2)×50%".toList = .ok "1.5".toList := by
    decide +kernel
  have hleft : resolve 1 2 (Display.enter Separators.canonical "(1+2)×50%".toList) =
      .ok "1.5".toList := by decide +kernel
  obtain ⟨resolved, hresolved, hfield⟩ :=
    evaluate_as_field (List.all_iff_forall_prop.1 (by decide)) hvalue (Nat.lt_succ_self 1)
  obtain rfl : "1.5".toList = resolved := Except.ok.inj (hleft.symm.trans hresolved)
  exact ⟨hvalue, hfield⟩

/-- A factorial of a group and a product with a constant are left as they are typed. -/
theorem evaluate_factorial_in_field :
    evaluate 64 Separators.canonical "(3)!".toList = .ok "6".toList ∧
      evaluate 64 Separators.canonical "[[(3)!]]".toList =
        .error (.fieldNotNumeric "(3)!".toList) ∧
      evaluate 64 Separators.canonical "2e".toList = .ok "5.43656365691809".toList ∧
      evaluate 64 Separators.canonical "[[2e]]".toList = .error (.fieldNotNumeric "2e".toList) := by
  decide +kernel

end Expression

end MatrixCalculator
