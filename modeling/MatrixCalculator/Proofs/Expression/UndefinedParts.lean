import MatrixCalculator.Proofs.Expression.NestedResolution
import MatrixCalculator.Proofs.Literal.RoundTrip

/-!
# Undefined parts

Where some part of an expression is not a number, the word that is written of it stands
among the terms of the chain around it.  No expression knows the word, so the chain fails
there, and the fault is one of reading and not the one of a result that is not a number.
That fault only comes of a matrix, whose entries are read field by field.
-/

namespace MatrixCalculator

open Chain Expression Numeral Outcome Text

namespace Expression

/-! ## In an expression -/

variable {limit : Nat} {before after literal : Text} {e : NestedChain} {m : Matrix Float}

/-- Within the limit of a whole expression its groups become chains. -/
theorem becomesChain_of_le (hminuends : e.HasClosedMinuends) (hlimit : 1 ≤ limit) :
    BecomesChain limit (e.tree.flatten (resolve limit limit)) e.values e.EndsInDigit := by
  obtain ⟨levels, rfl⟩ := Nat.exists_eq_add_of_le' hlimit
  exact e.becomesChain hminuends

/-- The groups of a chain are replaced, whatever stands beside it, and the rest is reduced. -/
theorem evaluate_around_chain (hminuends : e.HasClosedMinuends) (hlimit : 1 ≤ limit)
    (hbefore : IsPlainPart (resolve limit limit) before) (hquiet : Fits IsQuiet before)
    (hafter : IsPlainPart (resolve limit limit) after) (hquiet' : Fits IsQuiet after) :
    Expression.evaluate limit .canonical (before ++ e.text ++ after) = (do
      let flat ← e.tree.flatten (resolve limit limit)
      let resolved ← reduceText limit (resolve limit limit) (before ++ flat ++ after)
      let x ← operand limit (resolve limit limit) resolved
      report x) := by
  have hsound : e.tree.IsSound (resolve limit limit) undefinedFault := by
    obtain ⟨levels, rfl⟩ := Nat.exists_eq_add_of_le' hlimit
    exact e.isSound hminuends
  have hkeeps : KeepsLiterals (resolve limit limit) (before ++ e.text ++ after) :=
    (hbefore.keepsLiterals.append (keepsLiterals_of_not_mem e.not_mem_text)).append
      hafter.keepsLiterals
  have htext : Follows IsQuiet none (before ++ e.text ++ after) :=
    ((hquiet.append e.fits_text).append hquiet') none
  have hbalanced :
      (before ++ e.text ++ after).count '(' = (before ++ e.text ++ after).count ')' := by
    simp [e.count_text hminuends, hbefore.count_paren, hafter.count_paren]
  have hgroups : resolveGroups (resolve limit limit) (before ++ e.text ++ after) = _ :=
    resolveGroups_around (hbefore.unmarked _ (by decide)) (hafter.unmarked _ (by decide))
      (hafter.unmarked _ (by decide))
  rw [← e.text_tree, resolveGroups_nested hsound, e.text_tree] at hgroups
  rw [evaluate_eq_bind htext hkeeps]
  obtain ⟨text, links, hflat, hreads, -⟩ | ⟨-, hflat⟩ := becomesChain_of_le hminuends hlimit
  · rw [hflat, map_ok] at hgroups
    have hvalue := ((hquiet.append hreads.quiet).append hquiet') none
    rw [passes_of_groups hkeeps htext hbalanced hgroups hvalue, hflat]
    rfl
  · rw [hflat, map_error] at hgroups
    rw [passes_of_groups_error hkeeps htext hbalanced hgroups, hflat]
    rfl

theorem evaluate_chain (hminuends : e.HasClosedMinuends) (hlimit : 1 ≤ limit) :
    Expression.evaluate limit .canonical e.text =
      match e.values.handedOn with
      | some x => .ok (write x)
      | none => .error undefinedFault := by
  have haround := evaluate_around_chain hminuends hlimit isPlainPart_nil fits_nil isPlainPart_nil
    fits_nil
  have hchain := becomesChain_of_le hminuends hlimit
  have hterm : BecomesTerm limit (_ >>= resolve limit (limit + 1)) _ _ :=
    hchain.becomesTerm e.isFinite_handedOn
  rw [List.nil_append, List.append_nil] at haround
  rw [haround]
  obtain ⟨text, links, hflat, hreads, -⟩ | ⟨hdefined, hflat⟩ := hchain
  · rw [hflat, ok_bind, resolve, passes_linkedText hreads (Set.mem_univ _)] at hterm
    rw [hflat, ok_bind, List.nil_append, List.append_nil]
    obtain ⟨resolved, hreduced, hresolved, -⟩ | ⟨hnone, hreduced⟩ := hterm
    · rw [hreduced, ok_bind, hresolved.operand_eq (Set.mem_univ _)]
      cases hvalue : e.values.handedOn with
      | none => rfl
      | some x =>
        have hnumber := TermValues.not_isNaN_handedOn (fun _ => e.not_isNaN_first) hvalue
        have hreport := report_scalar x
        rw [hnumber, if_neg Bool.false_ne_true] at hreport
        exact hreport
    · rw [hreduced, hnone]
      rfl
  · rw [hflat, TermValues.handedOn_of_not_isDefined hdefined]
    rfl

/-! ## Beside a literal -/

/-- What is reported of a chain whose value is a matrix, if it has one. -/
theorem report_linkedText {scope : Set (Text → Except Fault Text)}
    {evaluate : Text → Except Fault Text} {text : Text} {links : Links Text}
    {value? : Option Operand} {values : Links (Option Operand)}
    (hchain : ChainReads limit scope text links value? values) (hscope : evaluate ∈ scope)
    (hevaluate : ∀ x, evaluate (write x) = .ok (write x))
    (hadd : .add ∈ links.map Prod.fst)
    (hmatrix : ∀ x, reduce Operator.apply (operandChain value? values) = .ok x →
      ∃ m : Matrix Float, x = .matrix m ∧ m.HasEntries) :
    (do
      let resolved ← reduceText limit evaluate (linkedText text links)
      let x ← operand limit evaluate resolved
      report x) =
      if allDefined value? values then (do
        report (← reduce Operator.apply (operandChain value? values)))
      else .error undefinedFault := by
  obtain ⟨link, hlink, hadd⟩ := List.mem_map.1 hadd
  cases hdefined : allDefined value? values with
  | false =>
    obtain hfails | ⟨hsub, -⟩ := reduceText_linkedText_undefined hchain hscope hdefined
    · rw [hfails]
      rfl
    · rw [hsub link hlink] at hadd
      cases hadd
  | true =>
    rw [reduceText_linkedText hchain hscope (List.ne_nil_of_mem hlink) hdefined, if_pos rfl]
    exact report_written hevaluate hmatrix

/-- The sum of a chain and a matrix behind it. -/
theorem reduce_concat_matrix (v : TermValues) (m : Matrix Float) :
    reduce Operator.apply (operandChain (v.first.map .scalar)
        (operandLinks v ++ [(Operator.add, some (.matrix m))])) =
      .ok (.matrix (m.map (· + v.value))) := by
  refine reduce_ofLinks_eq_ok_iff.2 ?_
  rw [List.map_append, List.map_singleton, eval_tree_concat rfl, eval_operandLinks]
  rfl

/-- A matrix with numbers behind it has a matrix as its value. -/
theorem exists_matrix_of_reduce {values : Links (Option Operand)} (hm : m.HasEntries)
    (hvalues : ∀ link ∈ values, (orZero link.2).HasEntries) {x : Operand}
    (hvalue : reduce Operator.apply (operandChain (some (.matrix m)) values) = .ok x) :
    ∃ m : Matrix Float, x = .matrix m ∧ m.HasEntries := by
  have heval := reduce_ofLinks_eq_ok_iff.1 hvalue
  refine eval_tree_of_forall (P := Operand.HasEntries)
    (R := fun x => ∃ m : Matrix Float, x = .matrix m ∧ m.HasEntries)
    (fun op x y value hx hy => Operator.hasEntries_of_apply hx hy) ?_ ?_ ⟨m, rfl, hm⟩ heval
  · rintro op _ y value ⟨m, rfl, hm⟩ hy happly
    obtain ⟨result, rfl⟩ := Operator.exists_matrix_of_apply happly
    exact ⟨result, rfl, Operator.hasEntries_of_apply (x := .matrix m) hm hy happly⟩
  · intro link hlink
    obtain ⟨link, hmem, rfl⟩ := List.mem_map.1 hlink
    exact hvalues link hmem

theorem reads_denoted (hliteral : Literal.Denotes limit literal m) :
    Reads limit {resolve limit limit} (Literal.write m) (some (.matrix (m.map shown))) := by
  refine reads_literal hliteral.hasEntries ?_
  rintro _ rfl
  exact resolve_write_of_le hliteral.one_le

/-- A chain in front of a literal is added to the matrix, if all its terms are numbers. -/
theorem evaluate_chain_add (hminuends : e.HasClosedMinuends)
    (hliteral : Literal.Denotes limit literal m) :
    Expression.evaluate limit .canonical (e.text ++ '+' :: literal) =
      if e.values.isDefined then report (.matrix ((m.map shown).map (· + e.values.value)))
      else .error undefinedFault := by
  have hevaluate := resolve_write_of_le hliteral.one_le
  have hplus : IsPlainPart (resolve limit limit) ['+'] := isPlainPart_symbol .add
  have hquiet : Fits IsQuiet ['+'] := fits_symbol .add
  have hwritten : Expression.evaluate limit .canonical (e.text ++ ['+'] ++ literal ++ []) = _ :=
    hliteral.evaluate_around (enter_eq ((e.fits_text.append hquiet) none))
      ((keepsLiterals_of_not_mem e.not_mem_text).append hplus.keepsLiterals) rfl
      isPlainPart_nil.keepsLiterals
  have haround := evaluate_around_chain hminuends hliteral.one_le isPlainPart_nil fits_nil
    (hplus.append hliteral.isPlainPart) (hquiet.append (fits_operand (.matrix m)))
  have hchain := becomesChain_of_le hminuends hliteral.one_le
  simp only [List.append_assoc, List.append_nil, List.nil_append] at hwritten haround
  refine (hwritten.trans haround).trans ?_
  obtain ⟨text, links, hflat, hreads, -⟩ | ⟨hdefined, hflat⟩ := hchain
  · have hlinked : ChainReads _ _ text (links ++ [(Operator.add, Literal.write m)]) _ _ :=
      (hreads.mono (Set.subset_univ _)).concat (reads_denoted hliteral) nofun
    have hsum := reduce_concat_matrix e.values (m.map shown)
    have hreport := report_linkedText hlinked rfl hevaluate (by simp)
      fun x hx => ⟨_, Except.ok.inj (hx.symm.trans hsum), (hliteral.hasEntries.map shown).map _⟩
    rw [linkedText_concat, hsum, ok_bind, allDefined_concat, allDefined_operandLinks] at hreport
    rw [hflat, ok_bind, ← hreport]
    rfl
  · rw [hflat, hdefined]
    rfl

/-- Behind a literal the terms of a chain are added one by one, if all of them are
numbers. -/
theorem evaluate_add_chain (hminuends : e.HasClosedMinuends)
    (hliteral : Literal.Denotes limit literal m) :
    Expression.evaluate limit .canonical (literal ++ '+' :: e.text) =
      if e.values.isDefined then (do
        report (← reduce Operator.apply (operandChain (some (.matrix (m.map shown)))
          ((.add, e.values.first.map .scalar) :: operandLinks e.values))))
      else .error undefinedFault := by
  have hevaluate := resolve_write_of_le hliteral.one_le
  have hplus : IsPlainPart (resolve limit limit) ['+'] := isPlainPart_symbol .add
  have hquiet : Fits IsQuiet ['+'] := fits_symbol .add
  have hwritten : Expression.evaluate limit .canonical ([] ++ literal ++ (['+'] ++ e.text)) = _ :=
    hliteral.evaluate_around rfl isPlainPart_nil.keepsLiterals
      (enter_eq ((hquiet.append e.fits_text) none))
      (hplus.keepsLiterals.append (keepsLiterals_of_not_mem e.not_mem_text))
  have haround := evaluate_around_chain hminuends hliteral.one_le
    (hliteral.isPlainPart.append hplus) ((fits_operand (.matrix m)).append hquiet)
    isPlainPart_nil fits_nil
  have hchain := becomesChain_of_le hminuends hliteral.one_le
  simp only [List.append_assoc, List.append_nil, List.nil_append] at hwritten haround
  refine (hwritten.trans haround).trans ?_
  obtain ⟨text, links, hflat, hreads, -⟩ | ⟨hdefined, hflat⟩ := hchain
  · have hlinked : ChainReads _ _ (Literal.write m) ((Operator.add, text) :: links) _ _ :=
      .link .add (reads_denoted hliteral) nofun (hreads.mono (Set.subset_univ _))
    have hentries : ∀ link ∈ (Operator.add, e.values.first.map .scalar) :: operandLinks e.values,
        (orZero link.2).HasEntries := by
      have hscalar : ∀ x? : Option Float, (orZero (x?.map .scalar)).HasEntries := by
        intro x?
        rw [orZero_scalar]
        trivial
      refine List.forall_mem_cons.2 ⟨hscalar _, fun link hlink => ?_⟩
      obtain ⟨link, -, rfl⟩ := List.mem_map.1 hlink
      exact hscalar _
    have hreport := report_linkedText hlinked rfl hevaluate (by simp) fun x hx =>
      exists_matrix_of_reduce (hliteral.hasEntries.map shown) hentries hx
    have hall : allDefined (some (Operand.matrix (m.map shown)))
        ((Operator.add, e.values.first.map .scalar) :: operandLinks e.values) =
          e.values.isDefined := allDefined_operandLinks e.values
    rw [hall] at hreport
    rw [hflat, ok_bind, ← hreport]
    rfl
  · rw [hflat, hdefined]
    rfl

/-- What is not a number spreads over a matrix to which it is added. -/
theorem report_add_of_isNaN (hm : m.HasEntries) {a : Float} (ha : a.isNaN = true) :
    report (.matrix (m.map (· + a))) = .error .notANumber := by
  have hsum : (m.map (· + a)).HasEntries := hm.map _
  have hlength : 0 < (m.map (· + a)).entries.length := by
    rw [Matrix.length_entries]
    exact Nat.mul_pos hsum.1 hsum.2
  obtain ⟨x, hx⟩ := List.exists_mem_of_length_pos hlength
  have hnan : x.isNaN = true := by
    obtain ⟨row, hrow, hx⟩ := List.mem_flatten.1 hx
    obtain ⟨row, -, rfl⟩ := List.mem_map.1 hrow
    obtain ⟨y, -, rfl⟩ := List.mem_map.1 hx
    exact isNaN_add ha
  have hcontains : contains notANumberWord (Operand.matrix (m.map (· + a))).write = true := by
    rw [← Bool.not_eq_false, Operand.contains_write_iff]
    intro hnumber
    rw [hnumber x hx] at hnan
    cases hnan
  rw [report, if_pos hcontains]

/-- An expression is not a number where a part of it is not.  Then its text is an unknown
word, alone and beside a literal, unless the part is all that stands beside the literal. -/
theorem evaluate_undefined_parts (hminuends : e.HasClosedMinuends)
    (hliteral : Literal.Denotes limit literal m) :
    (e.values.handedOn = none ↔ ∃ part ∈ e.parts, part.IsUndefined) ∧
      (e.values.isDefined = false ↔ ∃ part ∈ e.groups, part.IsUndefined) ∧
      Expression.evaluate limit .canonical e.text =
        (match e.values.handedOn with
        | some x => .ok (write x)
        | none => .error (.unknownSymbol notANumberWord)) ∧
      Expression.evaluate limit .canonical (e.text ++ '+' :: literal) =
        (if e.values.isDefined = false then .error (.unknownSymbol notANumberWord)
        else if e.values.value.isNaN then .error .notANumber
        else report (.matrix ((m.map shown).map (· + e.values.value)))) ∧
      Expression.evaluate limit .canonical (literal ++ '+' :: e.text) =
        if e.values.isDefined = false then .error (.unknownSymbol notANumberWord)
        else (do
          report (← reduce Operator.apply (operandChain (some (.matrix (m.map shown)))
            ((.add, e.values.first.map .scalar) :: operandLinks e.values)))) := by
  refine ⟨e.handedOn_eq_none_iff, e.isDefined_eq_false_iff,
    evaluate_chain hminuends hliteral.one_le, ?_, ?_⟩
  · rw [evaluate_chain_add hminuends hliteral]
    cases e.values.isDefined with
    | false => rfl
    | true =>
      cases hnan : e.values.value.isNaN with
      | true => exact report_add_of_isNaN (hliteral.hasEntries.map shown) hnan
      | false => rfl
  · rw [evaluate_add_chain hminuends hliteral]
    cases e.values.isDefined <;> rfl

def undefinedQuotient : NestedChain :=
  let zero : PlainNumeral := ⟨(Spelling.ofDigits (.single '0' rfl)).typed, by decide, by decide⟩
  let two : PlainNumeral := ⟨(Spelling.ofDigits (.single '2' rfl)).typed, by decide, by decide⟩
  .link (.numeral zero) .div (.single (.group (.link (.numeral two) .sub (.single (.numeral two)))))

theorem evaluate_undefined_quotient :
    Expression.evaluate 64 .canonical "0÷(2-2)".toList = .error (.unknownSymbol "NaN".toList) ∧
      Expression.evaluate 64 .canonical "0÷(2-2)+[[1,2]]".toList = .error .notANumber := by
  have hminuends : undefinedQuotient.HasClosedMinuends :=
    ⟨nofun, trivial, fun _ => rfl, trivial, trivial⟩
  have hliteral : Literal.Denotes 64 "[[1,2]]".toList (Matrix.ofRows 2 [[1, 2]]) := by
    decide +kernel
  have hvalues : undefinedQuotient.values.handedOn = none ∧
      undefinedQuotient.values.isDefined = true ∧
      undefinedQuotient.values.value.isNaN = true := by
    decide +kernel
  obtain ⟨-, -, halone, hsum, -⟩ := evaluate_undefined_parts hminuends hliteral
  rw [hvalues.1] at halone
  rw [hvalues.2.1, hvalues.2.2] at hsum
  exact ⟨halone, hsum⟩

/-- What is not a number is reported as such by the evaluator of scalar expressions.  The
one of expressions with matrices only does so where a matrix comes of it: else it names a
word that nobody typed, or has a value where a hyphen is no operator. -/
theorem evaluate_zero_quotient :
    Scalar.solve 64 "0÷0".toList = .error .notANumber ∧
      Expression.evaluate 64 .canonical "0÷0".toList = .error (.unknownSymbol "NaN".toList) ∧
      Expression.evaluate 64 .canonical "0÷0+[[1]]".toList = .error .notANumber ∧
      Expression.evaluate 64 .canonical "(0÷0)+[[1]]".toList =
        .error (.unknownSymbol "NaN".toList) ∧
      Expression.evaluate 64 .canonical "(1÷0)-1×(1÷0)".toList = .ok "Infinity".toList := by
  decide +kernel

end Expression

end MatrixCalculator
