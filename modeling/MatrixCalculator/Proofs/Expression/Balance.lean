import MatrixCalculator.Proofs.Depth
import MatrixCalculator.Proofs.Expression.Marks
import MatrixCalculator.Proofs.Expression.Results

/-!
# Missing parentheses

One parenthesis that is missing at the end of an expression is forgiven.  The fields of
literals are expressions of their own, so every one of them may lack a parenthesis besides
the text around the literals, and a text as a whole lacks as many as there are such parts.
-/

namespace MatrixCalculator

open Outcome Text

/-! ## Counting -/

namespace Text

variable {text mark : Text}

/-- How many more parentheses open in a text than close. -/
def unclosed (text : Text) : Int := text.count '(' - text.count ')'

theorem unclosed_append (left right : Text) :
    unclosed (left ++ right) = unclosed left + unclosed right := by
  rw [unclosed, List.count_append, List.count_append, unclosed, unclosed]
  omega

theorem unclosed_eq_zero (hopen : '(' ∉ text) (hclose : ')' ∉ text) : unclosed text = 0 := by
  rw [unclosed, List.count_eq_zero_of_not_mem hopen, List.count_eq_zero_of_not_mem hclose]
  rfl

theorem unclosed_parentheses (text : Text) : unclosed (parentheses text) = unclosed text := by
  have hopen : (parentheses text).count '(' = text.count '(' := List.count_filter rfl
  have hclose : (parentheses text).count ')' = text.count ')' := List.count_filter rfl
  rw [unclosed, hopen, hclose, unclosed]

/-- A text lacks what its pieces lack. -/
theorem sum_unclosed_splitOn (hmark : mark ≠ []) (hopen : '(' ∉ mark) (hclose : ')' ∉ mark)
    (text : Text) : ((splitOn mark text).map unclosed).sum = unclosed text := by
  rw [splitOn, dif_neg hmark]
  fun_induction pieces mark hmark text with
  | case1 text hcut => simp
  | case2 text before rest hcut _ ih =>
    rw [List.map_cons, List.sum_cons, ih, eq_append_of_cut? hcut, unclosed_append,
      unclosed_append, unclosed_eq_zero hopen hclose]
    omega

end Text

/-! ## The parts of a text -/

namespace Expression

variable {limit : Nat} {separators : Separators} {evaluate : Text → Except Fault Text}
  {text canonical value field : Text}

/-- The text around the literals of a text, and the fields of all of them. -/
def literalParts (separators : Separators) (text : Text) : Text × List Text :=
  match hopen : cut? Literal.opening text with
  | none => (text, [])
  | some (before, inside) =>
    match hclose : cut? Literal.closing inside with
    | none => (text, [])
    | some (body, rest) =>
      have : rest.length < text.length :=
        Nat.lt_trans (length_lt_of_cut? (by decide) hclose) (length_lt_of_cut? (by decide) hopen)
      (before ++ (literalParts separators rest).1,
        (Literal.fieldsOf separators body).flatten ++ (literalParts separators rest).2)
termination_by text.length

/-- A literal lacks what its fields lack. -/
theorem sum_unclosed_fieldsOf (hmatrix : separators.matrix ∉ ['(', ')']) (body : Text) :
    ((Literal.fieldsOf separators body).flatten.map unclosed).sum = unclosed body := by
  simp only [List.mem_cons, List.not_mem_nil, or_false, not_or] at hmatrix
  have hrow : ∀ row, ((splitOn [separators.matrix] row).map unclosed).sum = unclosed row :=
    sum_unclosed_splitOn (List.cons_ne_nil _ _) (by simpa using Ne.symm hmatrix.1)
      (by simpa using Ne.symm hmatrix.2)
  have hrows : ((splitOn Literal.rowBreak body).map unclosed).sum = unclosed body :=
    sum_unclosed_splitOn (by decide) (by decide) (by decide) body
  rw [Literal.fieldsOf, List.map_flatten, List.sum_flatten, List.map_map, List.map_map, ← hrows]
  exact congrArg List.sum (List.map_congr_left fun row _ => hrow row)

/-- A text lacks what its parts lack. -/
theorem unclosed_literalParts (hmatrix : separators.matrix ∉ ['(', ')']) (text : Text) :
    unclosed text = unclosed (literalParts separators text).1 +
      ((literalParts separators text).2.map unclosed).sum := by
  fun_induction literalParts separators text with
  | case1 text hopen => simp
  | case2 text before inside hopen hclose => simp
  | case3 text before inside hopen body rest hclose _ ih =>
    have hopening : unclosed Literal.opening = 0 := rfl
    have hclosing : unclosed Literal.closing = 0 := rfl
    rw [eq_append_of_cut? hopen, eq_append_of_cut? hclose, List.map_append, List.sum_append,
      sum_unclosed_fieldsOf hmatrix]
    simp only [unclosed_append, hopening, hclosing, ih]
    omega

/-- The fields of a literal stand between its brackets. -/
theorem isInfix_of_mem_fieldsOf {interior : Text}
    (hfield : field ∈ (Literal.fieldsOf separators interior).flatten) : field <:+: interior := by
  rw [Literal.fieldsOf, ← List.flatMap_def, List.mem_flatMap] at hfield
  obtain ⟨line, hline, hfield⟩ := hfield
  exact (isInfix_of_mem_splitOn (List.cons_ne_nil _ _) hfield).trans
    (isInfix_of_mem_splitOn (by decide) hline)

/-- No field holds the end of a literal. -/
theorem not_isInfix_of_mem_literalParts (hfield : field ∈ (literalParts separators text).2) :
    ¬Literal.closing <:+: field := by
  fun_induction literalParts separators text with
  | case1 text hopen => cases hfield
  | case2 text before inside hopen hclose => cases hfield
  | case3 text before inside hopen body rest hclose _ ih =>
    rcases List.mem_append.1 hfield with hbody | hrest
    · have hwithin := isInfix_of_mem_fieldsOf hbody
      exact fun hclosing => not_isInfix_of_cut? (by decide) hclose (hclosing.trans hwithin)
    · exact ih hrest

/-! ## The parts of what has a value -/

theorem unclosed_write (m : Matrix Float) : unclosed (Literal.write m) = 0 :=
  unclosed_eq_zero (not_mem_operand (.matrix m) (by decide))
    (not_mem_operand (.matrix m) (by decide))

/-- Literals are replaced by texts without parentheses, once their fields have values. -/
theorem unclosed_canonicalizeLiterals
    (hcanonical : canonicalizeLiterals separators evaluate text = .ok canonical) :
    unclosed canonical = unclosed (literalParts separators text).1 ∧
      ∀ field ∈ (literalParts separators text).2, ∃ value, evaluate field = .ok value := by
  fun_induction literalParts separators text generalizing canonical with
  | case1 text hopen =>
    rw [canonicalizeLiterals_of_no_opening hopen] at hcanonical
    cases hcanonical
    exact ⟨rfl, nofun⟩
  | case2 text before inside hopen hclose =>
    rw [canonicalizeLiterals_of_no_closing hopen hclose] at hcanonical
    cases hcanonical
  | case3 text before inside hopen body rest hclose _ ih =>
    rw [canonicalizeLiterals_of_cut? hopen hclose] at hcanonical
    obtain ⟨m, hread, hcanonical⟩ := bind_eq_ok_iff.1 hcanonical
    obtain ⟨behind, hbehind, hcanonical⟩ := bind_eq_ok_iff.1 hcanonical
    cases hcanonical
    obtain ⟨hcount, hfields⟩ := ih hbehind
    refine ⟨?_, List.forall_mem_append.2
      ⟨fun field => Literal.exists_resolve_of_read hread, hfields⟩⟩
    rw [unclosed_append, unclosed_append, unclosed_append, unclosed_write, hcount, add_zero]

/-- Canonical literals are read and written again as they are. -/
theorem canonicalizeLiterals_canonical
    (hevaluate : ∀ field value, evaluate field = .ok value →
      ∀ x, evaluate (Numeral.write x) = .ok (Numeral.write x))
    (hcanonical : canonicalizeLiterals separators evaluate text = .ok canonical) :
    canonicalizeLiterals Separators.canonical evaluate canonical = .ok canonical := by
  induction text using literalParts.induct generalizing canonical with
  | case1 text hopen =>
    rw [canonicalizeLiterals_of_no_opening hopen] at hcanonical
    cases hcanonical
    exact canonicalizeLiterals_of_no_opening hopen
  | case2 text before inside hopen hclose =>
    rw [canonicalizeLiterals_of_no_closing hopen hclose] at hcanonical
    cases hcanonical
  | case3 text before inside hopen body rest hclose _ ih =>
    rw [canonicalizeLiterals_of_cut? hopen hclose] at hcanonical
    obtain ⟨m, hread, hcanonical⟩ := bind_eq_ok_iff.1 hcanonical
    obtain ⟨behind, hbehind, hcanonical⟩ := bind_eq_ok_iff.1 hcanonical
    cases hcanonical
    obtain ⟨⟨hheight, hwidth⟩, field, value, hvalue⟩ := Literal.hasEntries_of_read hread
    rw [List.append_assoc,
      canonicalizeLiterals_before_write hopen hheight hwidth (hevaluate field value hvalue),
      ih hbehind, map_ok, List.append_assoc]

/-! ## What is forgiven -/

theorem unclosed_of_balance {balanced : Text} (hbalanced : balance text = .ok balanced) :
    unclosed text = 0 ∨ unclosed text = 1 := by
  rw [balance] at hbalanced
  rw [unclosed]
  split at hbalanced
  · omega
  split at hbalanced
  · omega
  · cases hbalanced

/-- A text that passes lacks at most one parenthesis. -/
theorem unclosed_of_passes (hvalue : passes limit evaluate text = .ok value)
    (hcanonical : canonicalizeLiterals Separators.canonical evaluate text = .ok text) :
    unclosed text = 0 ∨ unclosed text = 1 := by
  rw [passes, hcanonical, ok_bind] at hvalue
  obtain ⟨spelled, hspelled, hvalue⟩ := bind_eq_ok_iff.1 hvalue
  obtain ⟨balanced, hbalanced, -⟩ := bind_eq_ok_iff.1 hvalue
  have hunclosed : unclosed spelled = unclosed text := by
    rw [unclosed, count_spellFactorials (by decide) (by decide) hspelled,
      count_spellFactorials (by decide) (by decide) hspelled, count_spellPercents (by decide),
      count_spellPercents (by decide), unclosed]
  rw [← hunclosed]
  exact unclosed_of_balance hbalanced

/-- A field has no literals of its own, so it lacks at most one parenthesis. -/
theorem unclosed_of_field {levels : Nat} (hclosing : ¬Literal.closing <:+: field)
    (hvalue : resolve limit levels field = .ok value) :
    unclosed field = 0 ∨ unclosed field = 1 := by
  cases levels with
  | zero => cases hvalue
  | succ levels =>
    rw [resolve] at hvalue
    refine unclosed_of_passes hvalue ?_
    cases hopen : cut? Literal.opening field with
    | none => exact canonicalizeLiterals_of_no_opening hopen
    | some parts =>
      obtain ⟨before, inside⟩ := parts
      have hclose : cut? Literal.closing inside = none := by
        by_contra hsome
        have hcontains : contains Literal.closing inside = true := by
          rw [contains, Option.isSome_iff_ne_none]
          exact hsome
        refine hclosing ((contains_iff.1 hcontains).trans ?_)
        rw [eq_append_of_cut? hopen]
        exact (List.suffix_append _ _).isInfix
      rw [passes, canonicalizeLiterals_of_no_closing hopen hclose] at hvalue
      cases hvalue

theorem unclosed_enter (hseparators : separators.KeepsBrackets) (text : Text) :
    unclosed (Display.enter separators text) = unclosed text := by
  rw [← unclosed_parentheses, hseparators.parentheses_enter, unclosed_parentheses]

theorem sum_unclosed (parts : List Text)
    (hparts : ∀ part ∈ parts, unclosed part = 0 ∨ unclosed part = 1) :
    (parts.map unclosed).sum = parts.countP (unclosed · = 1) := by
  induction parts with
  | nil => rfl
  | cons part parts ih =>
    obtain ⟨hpart, hparts⟩ := List.forall_mem_cons.1 hparts
    rw [List.map_cons, List.sum_cons, ih hparts, List.countP_cons]
    rcases hpart with h | h <;> simp [h, add_comm]

/-- Where an expression has a value, the text around its literals and each of their fields
lacks at most one parenthesis, and the whole lacks as many as there are parts that do. -/
theorem unclosed_of_evaluate (hseparators : separators.KeepsBrackets)
    (hmatrix : separators.matrix ∉ ['(', ')'])
    (hvalue : Expression.evaluate limit separators text = .ok value) :
    let parts := literalParts separators (Display.enter separators text)
    (∀ part ∈ parts.1 :: parts.2, unclosed part = 0 ∨ unclosed part = 1) ∧
      unclosed text = (parts.1 :: parts.2).countP (unclosed · = 1) ∧
      unclosed text ≤ parts.2.length + 1 := by
  intro parts
  rw [Expression.evaluate] at hvalue
  obtain ⟨canonical, hcanonical, hvalue⟩ := bind_eq_ok_iff.1 hvalue
  obtain ⟨resolved, hresolved, -⟩ := bind_eq_ok_iff.1 hvalue
  obtain ⟨haround, hfields⟩ := unclosed_canonicalizeLiterals hcanonical
  have hnumbers : ∀ field value, resolve limit limit field = .ok value →
      ∀ x, resolve limit limit (Numeral.write x) = .ok (Numeral.write x) := by
    intro field value hfield x
    cases limit with
    | zero => cases hfield
    | succ levels => exact resolve_write (levels + 1) levels x
  have hparts : ∀ part ∈ parts.1 :: parts.2, unclosed part = 0 ∨ unclosed part = 1 := by
    refine List.forall_mem_cons.2 ⟨?_, fun field hfield => ?_⟩
    · rw [← haround]
      exact unclosed_of_passes hresolved (canonicalizeLiterals_canonical hnumbers hcanonical)
    · obtain ⟨value, hvalue⟩ := hfields field hfield
      exact unclosed_of_field (not_isInfix_of_mem_literalParts hfield) hvalue
  have htotal : unclosed text = (parts.1 :: parts.2).countP (unclosed · = 1) := by
    rw [← sum_unclosed _ hparts, List.map_cons, List.sum_cons, ← unclosed_enter hseparators,
      unclosed_literalParts hmatrix]
  refine ⟨hparts, htotal, ?_⟩
  rw [htotal]
  exact_mod_cast List.countP_le_length

theorem unclosed_of_evaluate_product :
    let separators := Separators.ofLocale "de_DE".toList
    let parts := literalParts separators (Display.enter separators "[[(1,5;(2]]×(1".toList)
    Expression.evaluate 2 separators "[[(1,5;(2]]×(1".toList = .ok "[[1.5,2]]".toList ∧
      parts = ("×(1".toList, ["(1.5".toList, "(2".toList]) ∧
      unclosed "[[(1,5;(2]]×(1".toList = 3 := by
  intro separators parts
  have hvalue : Expression.evaluate 2 separators "[[(1,5;(2]]×(1".toList =
      .ok "[[1.5,2]]".toList := by
    decide +kernel
  have hparts : parts = ("×(1".toList, ["(1.5".toList, "(2".toList]) := by decide +kernel
  obtain ⟨-, htotal, -⟩ :=
    unclosed_of_evaluate (Separators.keepsBrackets_ofLocale _) (by decide +kernel) hvalue
  refine ⟨hvalue, hparts, htotal.trans ?_⟩
  rw [show literalParts separators _ = _ from hparts]
  rfl

/-- A text that lacks two parentheses has a value where they are missing in two parts. -/
theorem evaluate_two_unclosed :
    unclosed "[[(1,(2]]".toList = 2 ∧
      Expression.evaluate 64 Separators.canonical "[[(1,(2]]".toList = .ok "[[1,2]]".toList ∧
      unclosed "[[(1]]+(2".toList = 2 ∧
      Expression.evaluate 64 Separators.canonical "[[(1]]+(2".toList = .ok "[[3]]".toList := by
  decide +kernel

end Expression

end MatrixCalculator
