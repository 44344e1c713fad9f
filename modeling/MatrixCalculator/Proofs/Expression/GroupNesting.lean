import MatrixCalculator.Proofs.Expression.Applications
import MatrixCalculator.Proofs.Expression.Balance
import MatrixCalculator.Proofs.Expression.GroupRounds
import MatrixCalculator.Proofs.Expression.MarkSequences

/-!
# Groups that nest

The value of an expression without groups has none either, so whatever stands for a group in
the next round is text without parentheses.  Hence groups are resolved exactly where the
parentheses nest, one missing at the end aside, and every group is evaluated once.
-/

namespace MatrixCalculator.Expression

open Numeral Outcome Text

/-! ## Passes over text without parentheses -/

section Passes

variable {limit : Nat} {separators : Separators} {evaluate : Text → Except Fault Text}
  {text result : Text} {c : Char}

theorem operand_ne_nil (x : Operand) : x.write ≠ [] := by
  cases x with
  | scalar x => exact Numeral.write_ne_nil x
  | matrix m => exact List.cons_ne_nil _ _

theorem isBody_write (x : Operand) : IsBody x.write :=
  ⟨operand_ne_nil x, (paren_not_mem_write x).1, (paren_not_mem_write x).2⟩

theorem isBody_iff : IsBody text ↔ text ≠ [] ∧ ∀ c ∈ ['(', ')'], c ∉ text := by
  constructor
  · intro htext
    exact ⟨htext.ne_nil, by simp [htext.no_open, htext.no_close]⟩
  · rintro ⟨hne, hfree⟩
    exact ⟨hne, hfree _ (by simp), hfree _ (by simp)⟩

/-- A part of a body can be replaced by another body. -/
theorem IsBody.replace {before part after new : Text} (htext : IsBody (before ++ part ++ after))
    (hnew : IsBody new) : IsBody (before ++ new ++ after) := by
  obtain ⟨-, hopen, hclose⟩ := htext
  simp only [List.mem_append, not_or] at hopen hclose
  refine ⟨?_, ?_, ?_⟩
  · simp [hnew.ne_nil]
  · simp [hopen, hnew.no_open]
  · simp [hclose, hnew.no_close]

theorem isBody_of_count (htext : IsBody text) (hne : result ≠ [])
    (hcount : ∀ c ∈ ['(', ')'], result.count c = text.count c) : IsBody result := by
  rw [isBody_iff] at htext ⊢
  refine ⟨hne, fun c hc => ?_⟩
  rw [← List.count_eq_zero, hcount c hc, List.count_eq_zero]
  exact htext.2 c hc

theorem not_mem_canonicalizeLiterals (hc : c ∉ valueAlphabet) (htext : c ∉ text)
    (hresult : canonicalizeLiterals separators evaluate text = .ok result) : c ∉ result := by
  fun_induction literalParts separators text generalizing result with
  | case1 text hopen =>
    rw [canonicalizeLiterals_of_no_opening hopen] at hresult
    cases hresult
    exact htext
  | case2 text before inside hopen hclose =>
    rw [canonicalizeLiterals_of_no_closing hopen hclose] at hresult
    cases hresult
  | case3 text before inside hopen body rest hclose _ ih =>
    rw [canonicalizeLiterals_of_cut? hopen hclose] at hresult
    simp only [bind_eq_ok_iff, pure_eq_ok, Except.ok.injEq] at hresult
    obtain ⟨m, -, behind, hbehind, rfl⟩ := hresult
    rw [eq_append_of_cut? hopen, eq_append_of_cut? hclose] at htext
    simp only [List.mem_append, not_or] at htext ⊢
    exact ⟨⟨htext.1.1, not_mem_operand (.matrix m) hc⟩, ih htext.2.2 hbehind⟩

theorem isBody_canonicalizeLiterals (htext : IsBody text)
    (hresult : canonicalizeLiterals separators evaluate text = .ok result) : IsBody result := by
  refine ⟨?_, not_mem_canonicalizeLiterals (by decide) htext.no_open hresult,
    not_mem_canonicalizeLiterals (by decide) htext.no_close hresult⟩
  rw [canonicalizeLiterals] at hresult
  split at hresult
  · cases hresult
    exact htext.ne_nil
  split at hresult
  · cases hresult
  · simp only [bind_eq_ok_iff, pure_eq_ok, Except.ok.injEq] at hresult
    obtain ⟨m, -, behind, -, rfl⟩ := hresult
    simp [Literal.write]

theorem isBody_spellPercents (htext : IsBody text) : IsBody (spellPercents none text) := by
  refine isBody_of_count htext ?_ fun c hc => count_spellPercents ?_
  · obtain ⟨c, text, rfl⟩ := List.exists_cons_of_ne_nil htext.ne_nil
    rw [spellPercents]
    split
    · exact List.cons_ne_nil _ _
    · exact List.cons_ne_nil _ _
  · simp only [List.mem_cons, List.not_mem_nil, or_false] at hc
    rcases hc with rfl | rfl <;> decide

theorem writtenFactorial_ne_nil {digits : Text} (hresult : writtenFactorial digits = .ok result) :
    result ≠ [] := by
  simp only [writtenFactorial] at hresult
  split at hresult
  · rw [Factorial.write] at hresult
    split at hresult
    · cases hresult
      exact Nat.toDigits_ne_nil
    · obtain ⟨x, -, rfl⟩ := map_eq_ok_iff.1 hresult
      exact Numeral.write_ne_nil x
  · cases hresult

theorem isBody_spellFactorials (htext : IsBody text)
    (hresult : spellFactorials false text = .ok result) : IsBody result := by
  have hparens : ∀ c ∈ ['(', ')'], c ∉ numberAlphabet ∧ c ≠ '!' :=
    List.all_iff_forall_prop.1 (by decide)
  refine isBody_of_count htext ?_ fun c hc =>
    count_spellFactorials (hparens c hc).1 (hparens c hc).2 hresult
  obtain ⟨c, text, rfl⟩ := List.exists_cons_of_ne_nil htext.ne_nil
  rw [spellFactorials] at hresult
  split at hresult
  · split at hresult
    · simp only [bind_eq_ok_iff, pure_eq_ok, Except.ok.injEq] at hresult
      obtain ⟨product, hproduct, rest, -, rfl⟩ := hresult
      exact List.append_ne_nil_of_left_ne_nil (writtenFactorial_ne_nil hproduct) rest
    · simp only [bind_eq_ok_iff, pure_eq_ok, Except.ok.injEq] at hresult
      obtain ⟨rest, -, rfl⟩ := hresult
      exact List.cons_ne_nil _ _
  · simp only [bind_eq_ok_iff, pure_eq_ok, Except.ok.injEq] at hresult
    obtain ⟨rest, -, rfl⟩ := hresult
    exact List.cons_ne_nil _ _

theorem isBody_applyFirst (mark : Mark) {count : Nat} (htext : IsBody text)
    (hresult : mark.applyFirst evaluate count text = .ok result) : IsBody result := by
  induction count generalizing text with
  | zero =>
    cases hresult
    exact htext
  | succ count ih =>
    rw [Mark.applyFirst] at hresult
    split at hresult
    · cases hresult
      exact htext
    next head tail hcut =>
    split at hresult
    · cases hresult
    next before literal hliteral =>
    simp only [bind_eq_ok_iff] at hresult
    obtain ⟨m, -, applied, -, hresult⟩ := hresult
    refine ih ?_ hresult
    rw [Mark.literalBefore?] at hliteral
    simp only [Option.bind_eq_bind, Option.bind_eq_some_iff, Option.pure_def, Option.some.injEq,
      Prod.mk.injEq] at hliteral
    obtain ⟨-, -, ⟨before', inside⟩, hlast, rfl, rfl⟩ := hliteral
    rw [eq_append_of_cut? hcut, eq_append_of_cutLast? hlast, List.append_assoc before',
      List.append_assoc before'] at htext
    exact htext.replace (isBody_write (.matrix applied))

/-- What stands on both sides of an application stands in the text. -/
theorem exists_append_of_first? {a : Application} (hfirst : Application.first? text = some a) :
    ∃ middle, text = a.before ++ middle ++ a.after := by
  obtain ⟨name, htext, -⟩ := (standsIn_of_first? hfirst).place
  exact ⟨name ++ a.argument, by rw [htext]; simp⟩

theorem isBody_replace {a : Application} (hfirst : Application.first? text = some a)
    (htext : IsBody text) (hresult : a.replace evaluate = .ok result) : IsBody result := by
  obtain ⟨middle, rfl⟩ := exists_append_of_first? hfirst
  rw [Application.replace] at hresult
  simp only [bind_eq_ok_iff] at hresult
  obtain ⟨x, -, value, -, hresult⟩ := hresult
  split at hresult
  · cases hresult
  cases hresult
  rw [List.append_assoc a.before]
  refine htext.replace ?_
  have hvalue := isBody_write value
  split
  · exact ⟨List.cons_ne_nil _ _, by simp [hvalue.no_open, Symbol.times],
      by simp [hvalue.no_close, Symbol.times]⟩
  · exact hvalue

theorem isBody_replaceFirst {count : Nat} (htext : IsBody text)
    (hresult : Application.replaceFirst evaluate count text = .ok result) : IsBody result := by
  induction count generalizing text with
  | zero =>
    cases hresult
    exact htext
  | succ count ih =>
    rw [Application.replaceFirst] at hresult
    split at hresult
    · cases hresult
      exact htext
    · next a hfirst =>
      obtain ⟨replaced, hreplaced, hresult⟩ := bind_eq_ok_iff.1 hresult
      exact ih (isBody_replace hfirst htext hreplaced) hresult

theorem not_mem_spellConstants {previous : Option Char}
    (hc : c ∉ Symbol.times :: (eDigits ++ piDigits)) (htext : c ∉ text) :
    c ∉ spellConstants previous text := by
  simp only [List.mem_cons, List.mem_append, not_or] at hc
  obtain ⟨htimes, he, hpi⟩ := hc
  induction text generalizing previous with
  | nil => exact htext
  | cons d text ih =>
    obtain ⟨hd, htext⟩ := not_or.1 (List.mem_cons.not.1 htext)
    have hfactor : ∀ factor : Bool, c ∉ (if factor then [Symbol.times] else []) := by
      intro factor
      split
      · simpa using htimes
      · exact List.not_mem_nil
    simp only [spellConstants]
    split
    · exact List.not_mem_append he (ih htext)
    split
    · exact List.not_mem_append (List.not_mem_append (List.not_mem_append (hfactor _) hpi)
        (hfactor _)) (ih htext)
    · exact List.not_mem_cons_of_ne_of_not_mem hd (ih htext)

theorem isBody_spellConstants (htext : IsBody text) : IsBody (spellConstants none text) := by
  refine ⟨?_, not_mem_spellConstants (by decide) htext.no_open,
    not_mem_spellConstants (by decide) htext.no_close⟩
  obtain ⟨c, text, rfl⟩ := List.exists_cons_of_ne_nil htext.ne_nil
  have hpi : piDigits ≠ [] := by decide
  simp only [spellConstants]
  split
  · exact List.append_ne_nil_of_left_ne_nil (by decide) _
  by_cases hc : c = Symbol.pi
  · rw [if_pos hc]
    simp [hpi]
  · rw [if_neg hc]
    exact List.cons_ne_nil _ _

theorem isBody_reduceText (htext : IsBody text)
    (hresult : reduceText limit evaluate text = .ok result) : IsBody result := by
  rw [reduceText] at hresult
  split at hresult
  · cases hresult
    exact htext
  · simp only [bind_eq_ok_iff, pure_eq_ok, Except.ok.injEq] at hresult
    obtain ⟨operands, -, value, -, rfl⟩ := hresult
    exact isBody_write value

/-- All passes together. -/
theorem keepsBodies_passes : KeepsBodies (passes limit evaluate) := by
  intro text result htext hresult
  rw [passes] at hresult
  simp only [bind_eq_ok_iff] at hresult
  obtain ⟨canonical, hcanonical, spelled, hspelled, balanced, hbalanced, grouped, hgrouped,
    transposed, htransposed, inverted, hinverted, applied, happlied, hresult⟩ := hresult
  have hcanonical := isBody_canonicalizeLiterals htext hcanonical
  have hspelled := isBody_spellFactorials (isBody_spellPercents hcanonical) hspelled
  have hcount : spelled.count '(' = spelled.count ')' := by
    rw [hspelled.count_eq_zero (.inl rfl), hspelled.count_eq_zero (.inr rfl)]
  rw [balance_of_count hcount] at hbalanced
  cases hbalanced
  rw [resolveGroups_eq hspelled.no_open] at hgrouped
  cases hgrouped
  have htransposed := isBody_applyFirst _ hspelled htransposed
  have hinverted := isBody_applyFirst _ htransposed hinverted
  exact isBody_reduceText (isBody_spellConstants (isBody_replaceFirst hinverted happlied)) hresult

theorem keepsBodies_resolve (limit levels : Nat) : KeepsBodies (resolve limit levels) := by
  cases levels with
  | zero => exact fun _ _ _ => nofun
  | succ levels => exact keepsBodies_passes

end Passes

/-! ## Groups that nest -/

section Nesting

variable {evaluate : Text → Except Fault Text} {text closed value : Text} {calls : List Text}

/-- A text that nests, with one parenthesis more or not, is closed like that. -/
theorem balance_of_isNested (hclosed : closed = text ∨ closed = text ++ [')'])
    (hnested : IsNested closed) : balance text = .ok closed := by
  have hcount := hnested.count_eq
  rcases hclosed with rfl | rfl
  · exact balance_of_count hcount
  · rw [List.count_append, List.count_append] at hcount
    exact if_pos hcount

theorem closed_of_balance (hbalance : balance text = .ok closed) :
    (closed = text ∨ closed = text ++ [')']) ∧ closed.count '(' = text.count '(' ∧
      closed.count '(' = closed.count ')' := by
  rw [balance] at hbalance
  split at hbalance
  · next hcount =>
    cases hbalance
    refine ⟨.inr rfl, ?_, ?_⟩
    · rw [List.count_append]
      rfl
    · rw [List.count_append, List.count_append, hcount]
      rfl
  split at hbalance
  · next hcount =>
    cases hbalance
    exact ⟨.inl rfl, rfl, hcount⟩
  · cases hbalance

theorem Concludes.resolves (hconcludes : Concludes evaluate closed calls (.ok value)) :
    ∃ bodies, bodies.Perm calls ∧ Resolves evaluate closed value bodies := by
  cases hconcludes with
  | value hvalues hread =>
    obtain ⟨shown, bodies, hresolves, hshown, hbodies⟩ := Reading.exists_resolves hread rfl
    have hperm : bodies.Perm calls := Multiset.coe_eq_coe.1 (by simpa using hbodies.symm)
    cases hshown
    exact ⟨bodies, hperm, hresolves.congr fun body hbody => hvalues body (hperm.mem_iff.1 hbody)⟩

/-- Where the parentheses nest, there is no other fault than that of a body. -/
theorem Concludes.fault_of_isNested {cause : Fault} (hevaluate : KeepsBodies evaluate)
    (hconcludes : Concludes evaluate closed calls (.error cause)) (hnested : IsNested closed) :
    ∃ call ∈ calls, evaluate call = .error cause := by
  cases hconcludes with
  | fault hcall hfault => exact ⟨_, hcall, hfault⟩
  | misplaced hread =>
    obtain ⟨shown, bodies, hresolves⟩ := hnested.exists_resolves (valueOf evaluate)
    rw [Reading.advance_of_resolves hevaluate.valueOf hresolves] at hread
    cases hread

theorem exists_records_closeAndResolve (hevaluate : KeepsBodies evaluate) (text : Text) :
    ∃ (outcome : Except Fault Text) (calls : List Text),
      balance text >>= resolveGroups evaluate = outcome ∧
      Records (closeAndResolve (recorded evaluate) text) outcome calls ∧
      (∀ call ∈ calls, IsBody call) ∧
      ∀ closed, balance text = .ok closed → Concludes evaluate closed calls outcome := by
  rw [← closeAndResolve_eq, closeAndResolve, closeAndResolve]
  cases hbalance : balance text with
  | error cause =>
    exact ⟨.error cause, [], rfl, (records_known (.error cause)).bind_error,
      List.forall_mem_nil _, by simp⟩
  | ok closed =>
    obtain ⟨-, -, hcount⟩ := closed_of_balance hbalance
    obtain ⟨outcome, calls, houtcome, hrecords, hcalls, hconcludes⟩ :=
      exists_records_replaceGroups hevaluate hcount le_rfl
    refine ⟨outcome, calls, houtcome, ?_, hcalls, ?_⟩
    · rw [known_ok_bind]
      exact hrecords
    · rintro _ ⟨⟩
      exact hconcludes

end Nesting

/-- Groups are resolved exactly where the parentheses nest with something in every group, one
that is missing at the end aside.  Then every group is evaluated once, as the text without
parentheses that is left of it, and no parenthesis stays; else there is a fault.  Where the
parentheses nest, it is the fault of a group. -/
theorem resolveGroups_iff_nested (limit levels : Nat) (text : Text) :
    ∃ (outcome : Except Fault Text) (calls : List Text),
      balance text >>= resolveGroups (resolve limit levels) = outcome ∧
      Records (closeAndResolve (recorded (resolve limit levels)) text) outcome calls ∧
      (∀ call ∈ calls, IsBody call) ∧
      (∀ value, outcome = .ok value →
        '(' ∉ value ∧ ')' ∉ value ∧ calls.length = text.count '(' ∧
        ∃ closed bodies, (closed = text ∨ closed = text ++ [')']) ∧ IsNested closed ∧
          bodies.Perm calls ∧ Resolves (resolve limit levels) closed value bodies) ∧
      (¬IsNested text → ¬IsNested (text ++ [')']) → ∃ cause, outcome = .error cause) ∧
      (IsNested text ∨ IsNested (text ++ [')']) →
        (∀ call ∈ calls, ∃ value, resolve limit levels call = .ok value) →
        ∃ value, outcome = .ok value) := by
  have hevaluate := keepsBodies_resolve limit levels
  obtain ⟨outcome, calls, houtcome, hrecords, hcalls, hconcludes⟩ :=
    exists_records_closeAndResolve hevaluate text
  have hresolves : ∀ value, outcome = .ok value →
      ∃ closed bodies, (closed = text ∨ closed = text ++ [')']) ∧
        closed.count '(' = text.count '(' ∧ bodies.Perm calls ∧
          Resolves (resolve limit levels) closed value bodies := by
    rintro value rfl
    obtain ⟨closed, hbalance, -⟩ := bind_eq_ok_iff.1 houtcome
    obtain ⟨hclosed, hcount, -⟩ := closed_of_balance hbalance
    obtain ⟨bodies, hperm, hresolves⟩ := (hconcludes closed hbalance).resolves
    exact ⟨closed, bodies, hclosed, hcount, hperm, hresolves⟩
  refine ⟨outcome, calls, houtcome, hrecords, hcalls, fun value hvalue => ?_,
    fun hopen hclosed => ?_, fun hnested hvalues => ?_⟩
  · obtain ⟨closed, bodies, hclosed, hcount, hperm, hresolves⟩ := hresolves value hvalue
    obtain ⟨hopen, hclose, -⟩ := hresolves.free hevaluate
    refine ⟨hopen, hclose, ?_, closed, bodies, hclosed, hresolves.isNested, hperm, hresolves⟩
    rw [← hperm.length_eq, hresolves.length_bodies, hcount]
  · cases outcome with
    | error cause => exact ⟨cause, rfl⟩
    | ok value =>
      obtain ⟨closed, bodies, rfl | rfl, -, -, hresolves⟩ := hresolves value rfl
      · exact absurd hresolves.isNested hopen
      · exact absurd hresolves.isNested hclosed
  · cases outcome with
    | ok value => exact ⟨value, rfl⟩
    | error cause =>
      obtain ⟨closed, hclosed, hnested⟩ :
          ∃ closed, (closed = text ∨ closed = text ++ [')']) ∧ IsNested closed := by
        rcases hnested with hnested | hnested
        · exact ⟨text, .inl rfl, hnested⟩
        · exact ⟨_, .inr rfl, hnested⟩
      have hfaults := hconcludes closed (balance_of_isNested hclosed hnested)
      obtain ⟨call, hcall, hfault⟩ := hfaults.fault_of_isNested hevaluate hnested
      obtain ⟨value, hvalue⟩ := hvalues call hcall
      rw [hvalue] at hfault
      cases hfault

end MatrixCalculator.Expression
