import MatrixCalculator.Proofs.Expression.Surroundings

/-!
# Properties of brackets that the passes keep

Behind the first pass a text without groups is spelled anew without a change of its brackets,
or a literal in it is replaced by a value, together with the mark behind it or the name in
front of it.  So what is true of the brackets of such a text is true to the last pass: that it
opens no group, that no literal begins in it, that none begins in front of the first bracket
that closes, and that none begins inside of another one.
-/

namespace MatrixCalculator

open Expression Numeral Outcome Text Expression.Surroundings

namespace Expression

variable {text text' left right before after front back sign : Text} {c : Char}

/-! ## Properties that the passes keep -/

/-- Whether a property of a text without groups depends on its brackets alone and is true
when a value stands for a literal with the name in front of it or the mark behind it. -/
structure Stable (J : Text → Prop) : Prop where
  same {text text' : Text} (hsame : SameBrackets text text') (htext : J text) : J text'
  replace {before front body back after sign : Text} {x : Operand}
    (hfront : ∀ c ∈ front, IsPlain c) (hback : ∀ c ∈ back, IsPlain c)
    (hsign : ∀ c ∈ sign, IsPlain c) (hx : HasRows x)
    (htext : J (before ++ (front ++ (Literal.opening ++ body ++ Literal.closing) ++ back) ++
      after)) :
    J (before ++ (sign ++ x.write) ++ after)

theorem Stable.and {J K : Text → Prop} (hJ : Stable J) (hK : Stable K) :
    Stable fun text => J text ∧ K text where
  same hsame htext := ⟨hJ.same hsame htext.1, hK.same hsame htext.2⟩
  replace hfront hback hsign hx htext :=
    ⟨hJ.replace hfront hback hsign hx htext.1, hK.replace hfront hback hsign hx htext.2⟩

theorem stable_free : Stable fun text => '(' ∉ text where
  same hsame htext := fun hmem => htext ((hsame.mem_iff (by decide)).2 hmem)
  replace _ _ hsign _ htext := by
    have hopen := fun x : Operand => (paren_not_mem_write x).1
    simp only [List.mem_append, not_or] at htext ⊢
    exact ⟨⟨htext.1.1, fun hmem => absurd (hsign _ hmem) (by decide), hopen _⟩, htext.2⟩

theorem stable_unopened : Stable fun text => ¬Literal.opening <:+: text where
  same hsame htext := hsame.not_isInfix_opening htext
  replace {before front body back after _ _} _ _ _ _ htext :=
    absurd ⟨before ++ front, body ++ Literal.closing ++ back ++ after, by simp⟩ htext

theorem stable_isBarred : Stable IsBarred where
  same hsame htext := htext.same hsame
  replace {before front body back after _ _} hfront _ _ _ htext := by
    have htext : IsBarred ((before ++ front) ++ (Literal.opening ++
        (body ++ Literal.closing ++ back ++ after))) := by simpa using htext
    rw [List.append_assoc]
    exact (htext.of_opening.of_plain hfront).append _

theorem stable_isTame : Stable IsTame where
  same hsame htext := by
    rw [IsTame, ← hsame.run_eq]
    exact htext
  replace {before front body back after sign x} hfront hback hsign hx htext := by
    rw [IsTame, run_append, run_append] at htext ⊢
    generalize (outside false).run before = s at htext ⊢
    have hrun : s.run (front ++ Literal.opening ++ body ++ Literal.closing ++ back) ≠ broken := by
      rw [← run_append] at htext
      simpa only [List.append_assoc] using run_ne_broken htext
    obtain ⟨opened, rfl⟩ := exists_outside hfront
      (run_ne_broken (run_ne_broken (run_ne_broken hrun)))
    have hold : (outside opened).run (front ++ Literal.opening ++ body ++ Literal.closing ++ back) =
        outside false := by
      rw [run_append, run_append, run_closing (run_ne_broken (run_ne_broken hrun))]
      exact (run_of_isPlain (outside false) hback).elim id id
    have hnew : (outside opened).run (sign ++ x.write) = outside false := by
      obtain ⟨opened', hopened⟩ := exists_run_outside opened hsign
      rw [run_append, hopened, run_operand hx]
    rw [hnew, ← hold]
    simpa only [List.append_assoc] using htext

section Passes

variable {J : Text → Prop} {evaluate : Text → Except Fault Text} {result : Text} {count : Nat}

theorem startsWith_iff {lead : Text} : startsWith lead text = true ↔ lead <+: text := by
  rw [startsWith, Option.isSome_iff_exists]
  constructor
  · rintro ⟨rest, hrest⟩
    exact ⟨rest, (after?_eq_some_iff.1 hrest).symm⟩
  · rintro ⟨rest, hrest⟩
    exact ⟨rest, after?_eq_some_iff.2 hrest.symm⟩

theorem not_isInfix_of_cutLast? {inside : Text}
    (hcut : cutLast? Literal.opening text = some (before, inside)) :
    ¬Literal.opening <:+: inside := by
  obtain ⟨⟨after, front⟩, hfound, heq⟩ := Option.map_eq_some_iff.1 hcut
  cases heq
  intro hopening
  refine not_isInfix_of_cut? (by decide) hfound ?_
  simpa using List.reverse_infix.2 hopening

/-- The literal in front of a mark begins with the last brackets that can begin one. -/
theorem exists_inside_of_literalBefore? {literal : Text}
    (hliteral : Mark.literalBefore? text = some (before, literal)) :
    ∃ inside, literal = Literal.opening ++ inside ∧ text = before ++ literal ∧
      ¬Literal.opening <:+: inside := by
  simp only [Mark.literalBefore?, Option.bind_eq_bind, Option.bind_eq_some_iff, Option.pure_def,
    Option.some.injEq, Prod.mk.injEq] at hliteral
  obtain ⟨-, -, ⟨front, inside⟩, hlast, rfl, rfl⟩ := hliteral
  refine ⟨inside, rfl, ?_, not_isInfix_of_cutLast? hlast⟩
  rw [eq_append_of_cutLast? hlast, List.append_assoc]

theorem exists_interior_of_read {separators : Separators} {literal : Text}
    {m : Matrix Float} (hread : Literal.read separators evaluate literal = .ok m) :
    ∃ interior, literal = Literal.opening ++ interior ++ Literal.closing := by
  rw [Literal.read] at hread
  split at hread
  · cases hread
  · next interior hinterior => exact ⟨interior, Literal.interior?_eq_some_iff.1 hinterior⟩

theorem isPlain_name {name : Text} {f : NamedFunction}
    (hname : NamedFunction.atStart? text = some (name, f)) : ∀ c ∈ name, IsPlain c := by
  have hnames : ∀ c ∈ nameAlphabet, IsPlain c := List.all_iff_forall_prop.1 (by decide)
  intro c hc
  exact hnames c (mem_nameAlphabet (List.mem_of_find?_eq_some hname) hc)

theorem isPlain_signed (s : SignedSpelling) : ∀ c ∈ s.text, IsPlain c := by
  have hbrackets : ∀ d ∈ ['[', ']', '('], d ∉ numeralAlphabet :=
    List.all_iff_forall_prop.1 (by decide)
  exact fun c hc hmem => not_mem_signed s (hbrackets c hmem) hc

theorem Stable.replaceApplication (hJ : Stable J) {a : Application} (hstands : a.StandsIn text)
    (htext : J text) (hresult : a.replace evaluate = .ok result) : J result := by
  obtain ⟨name, heq, hname⟩ := hstands.place
  have hplain := isPlain_name hname
  simp only [Application.replace, bind_eq_ok_iff] at hresult
  obtain ⟨x, hx, value, hvalue, hresult⟩ := hresult
  split at hresult
  · cases hresult
  cases hresult
  have hsign : ∀ c ∈ (if Application.followsFactor a.before then [Symbol.times] else []),
      IsPlain c := by
    split
    · exact List.forall_mem_singleton.2 (by decide)
    · exact List.forall_mem_nil _
  rcases hstands.argument with ⟨body, hargument, -⟩ | ⟨s, hs⟩
  · have hrows : HasRows value := by
      have hstart : startsWith Literal.opening a.argument = true :=
        startsWith_iff.2 ⟨body ++ Literal.closing, by rw [hargument, List.append_assoc]⟩
      rw [Application.operand, if_pos hstart] at hx
      obtain ⟨m, hread, rfl⟩ := map_eq_ok_iff.1 hx
      have hm : HasRows (.matrix m) := (Literal.hasEntries_of_read hread).1.1
      exact hasRows_of_function hm hvalue
    rw [heq, hargument] at htext
    have htext : J (a.before ++ (name ++ (Literal.opening ++ body ++ Literal.closing) ++ []) ++
        a.after) := by simpa using htext
    simpa using hJ.replace hplain (List.forall_mem_nil _) hsign hrows htext
  · have hnumeral : ∀ c ∈ a.argument, IsPlain c := hs ▸ isPlain_signed s
    have hstart : startsWith Literal.opening a.argument = false := by
      rw [Bool.eq_false_iff, Ne, startsWith_iff]
      intro hopening
      exact absurd (hnumeral '[' (hopening.subset (by simp [Literal.opening]))) (by decide)
    obtain ⟨y, -, hy⟩ := hstands.operand_eq hstart
    rw [hy] at hx
    cases hx
    cases hvalue
    have hne : a.argument ≠ [] := by
      obtain ⟨c, hc, -⟩ := exists_head_signed s
      rintro hnil
      rw [← hs, hnil] at hc
      cases hc
    have hvalue : ∀ c ∈ write (a.function.apply y), IsPlain c := fun c =>
      isPlain_of_mem_number fun d hd => not_mem_number _ hd
    rw [heq, ← List.append_assoc name] at htext
    rw [List.append_assoc a.before, List.append_assoc a.before]
    refine hJ.same (sameBrackets_between ?_ ?_ ?_ ?_ a.before a.after) htext
    · exact List.append_ne_nil_of_right_ne_nil name hne
    · exact List.append_ne_nil_of_right_ne_nil _ (write_ne_nil _)
    · exact List.forall_mem_append.2 ⟨hplain, hnumeral⟩
    · exact List.forall_mem_append.2 ⟨hsign, hvalue⟩

/-- A mark on a literal. -/
theorem isPlain_mark (name : MarkName) : ∀ c ∈ name.mark.text, IsPlain c := by
  cases name <;> exact List.all_iff_forall_prop.1 (by decide)

theorem Stable.replaceMark (hJ : Stable J) (name : MarkName) {head tail literal : Text}
    {m value : Matrix Float} (hcut : cut? name.mark.text text = some (head, tail))
    (hliteral : Mark.literalBefore? head = some (before, literal))
    (hread : Literal.read Separators.canonical evaluate literal = .ok m)
    (hvalue : name.mark.apply m = .ok value) (htext : J text) :
    J (before ++ Literal.write value ++ tail) := by
  obtain ⟨interior, rfl⟩ := exists_interior_of_read hread
  have hrows : HasRows (.matrix value) :=
    (name.hasEntries_of_apply (Literal.hasEntries_of_read hread).1 hvalue).1
  have hnil : ∀ c ∈ ([] : Text), IsPlain c := List.forall_mem_nil _
  have htext : J (before ++ ([] ++ (Literal.opening ++ interior ++ Literal.closing) ++
      name.mark.text) ++ tail) := by
    obtain ⟨-, -, hhead, -⟩ := exists_inside_of_literalBefore? hliteral
    rw [eq_append_of_cut? hcut, hhead] at htext
    simpa using htext
  exact hJ.replace hnil (isPlain_mark name) hnil hrows htext

theorem Stable.applyFirst (hJ : Stable J) (name : MarkName) (htext : J text)
    (hresult : name.mark.applyFirst evaluate count text = .ok result) : J result := by
  induction count generalizing text with
  | zero =>
    cases hresult
    exact htext
  | succ count ih =>
    rw [Mark.applyFirst] at hresult
    split at hresult
    · cases hresult
      exact htext
    next head tail hcut =>
    split at hresult
    · cases hresult
    next before literal hliteral =>
    simp only [bind_eq_ok_iff] at hresult
    obtain ⟨m, hread, value, hvalue, hresult⟩ := hresult
    exact ih (hJ.replaceMark name hcut hliteral hread hvalue htext) hresult

theorem Stable.replaceFirst (hJ : Stable J) (htext : J text)
    (hresult : Application.replaceFirst evaluate count text = .ok result) : J result := by
  induction count generalizing text with
  | zero =>
    cases hresult
    exact htext
  | succ count ih =>
    rw [Application.replaceFirst] at hresult
    split at hresult
    · cases hresult
      exact htext
    next a hfirst =>
    obtain ⟨replaced, hreplaced, hresult⟩ := bind_eq_ok_iff.1 hresult
    exact ih (hJ.replaceApplication (standsIn_of_first? hfirst) htext hreplaced) hresult

end Passes

end Expression

end MatrixCalculator
