import MatrixCalculator.Proofs.Expression.GroupNesting

/-!
# Texts with the same brackets

The passes that only spell marks and constants leave all brackets where they are: text
without brackets becomes other text without brackets, and none of it disappears.  So whatever
depends on the brackets of a text and on what stands directly beside them is the same before
and after.
-/

namespace MatrixCalculator

open Expression Numeral Outcome Text

namespace Expression

variable {text text' left right before after front back sign : Text} {c : Char}

/-! ## Texts with the same brackets -/

/-- Whether a character neither belongs to the brackets of literals nor opens a group. -/
def IsPlain (c : Char) : Prop := c ∉ ['[', ']', '(']

instance (c : Char) : Decidable (IsPlain c) := inferInstanceAs (Decidable (c ∉ ['[', ']', '(']))

theorem isPlain_of_isDigit (hc : c.isDigit = true) : IsPlain c :=
  of_isDigit IsPlain (List.all_iff_forall_prop.1 (by decide)) hc

theorem isPlain_of_mem_number {number : Text} (hnumber : ∀ d ∉ numberAlphabet, d ∉ number)
    (hc : c ∈ number) : IsPlain c := by
  have hbrackets : ∀ d ∈ ['[', ']', '('], d ∉ numberAlphabet :=
    List.all_iff_forall_prop.1 (by decide)
  exact fun hmem => hnumber c (hbrackets c hmem) hc

/-- Whether a text becomes another one where text without brackets is replaced by other text
without brackets, and nothing is replaced by nothing. -/
inductive SameBrackets : Text → Text → Prop
  | nil : SameBrackets [] []
  | char (c : Char) {text text' : Text} (hrest : SameBrackets text text') :
      SameBrackets (c :: text) (c :: text')
  | plain {part part' text text' : Text} (hne : part ≠ []) (hne' : part' ≠ [])
      (hpart : ∀ c ∈ part, IsPlain c) (hpart' : ∀ c ∈ part', IsPlain c)
      (hrest : SameBrackets text text') : SameBrackets (part ++ text) (part' ++ text')

theorem sameBrackets_refl (text : Text) : SameBrackets text text := by
  induction text with
  | nil => exact .nil
  | cons c text ih => exact .char c ih

/-- One character is replaced. -/
theorem SameBrackets.spell {part : Text} (hc : IsPlain c) (hne : part ≠ [])
    (hpart : ∀ c ∈ part, IsPlain c) (hrest : SameBrackets text text') :
    SameBrackets (c :: text) (part ++ text') :=
  @plain [c] part text text' (List.cons_ne_nil _ _) hne (by simpa using hc) hpart hrest

theorem SameBrackets.symm (hsame : SameBrackets text text') : SameBrackets text' text := by
  induction hsame with
  | nil => exact .nil
  | char c _ ih => exact .char c ih
  | plain hne hne' hpart hpart' _ ih => exact .plain hne' hne hpart' hpart ih

theorem SameBrackets.append (hsame : SameBrackets left right) (text : Text)
    (hrest : SameBrackets text text') : SameBrackets (left ++ text) (right ++ text') := by
  induction hsame with
  | nil => exact hrest
  | char c _ ih => exact .char c ih
  | plain hne hne' hpart hpart' _ ih =>
    rw [List.append_assoc, List.append_assoc]
    exact .plain hne hne' hpart hpart' ih

theorem sameBrackets_between {part part' : Text} (hne : part ≠ []) (hne' : part' ≠ [])
    (hpart : ∀ c ∈ part, IsPlain c) (hpart' : ∀ c ∈ part', IsPlain c) (before after : Text) :
    SameBrackets (before ++ (part ++ after)) (before ++ (part' ++ after)) :=
  (sameBrackets_refl before).append _ (.plain hne hne' hpart hpart' (sameBrackets_refl after))

/-- A bracket stands between texts with the same brackets. -/
theorem SameBrackets.exists_append (hsame : SameBrackets text text') (hc : ¬IsPlain c)
    (htext : text = left ++ c :: right) :
    ∃ left' right', text' = left' ++ c :: right' ∧ SameBrackets left left' ∧
      SameBrackets right right' := by
  induction hsame generalizing left with
  | nil => simp at htext
  | @char d text text' hrest ih =>
    cases left with
    | nil =>
      cases htext
      exact ⟨[], _, rfl, .nil, hrest⟩
    | cons d' left =>
      obtain ⟨rfl, htail⟩ := List.cons.inj htext
      obtain ⟨left', right', rfl, hleft, hright⟩ := ih htail
      exact ⟨d :: left', right', rfl, .char d hleft, hright⟩
  | @plain part part' text text' hne hne' hpart hpart' _ ih =>
    rcases List.append_eq_append_iff.1 htext with ⟨inner, rfl, hinner⟩ | ⟨inner, rfl, hinner⟩
    · obtain ⟨left', right', rfl, hleft, hright⟩ := ih hinner
      exact ⟨part' ++ left', right', by simp, .plain hne hne' hpart hpart' hleft, hright⟩
    · cases inner with
      | nil =>
        obtain ⟨left', right', rfl, hleft, hright⟩ := @ih [] hinner.symm
        refine ⟨part' ++ left', right', by simp, ?_, hright⟩
        simpa using SameBrackets.plain hne hne' hpart hpart' hleft
      | cons d inner =>
        obtain ⟨rfl, -⟩ := List.cons.inj hinner
        exact absurd (hpart c (by simp)) hc

theorem SameBrackets.eq_nil (hsame : SameBrackets text text') (htext : text = []) : text' = [] := by
  cases hsame with
  | nil => rfl
  | char => cases htext
  | plain hne => exact absurd (List.append_eq_nil_iff.1 htext).1 hne

theorem SameBrackets.mem_iff (hsame : SameBrackets text text') (hc : ¬IsPlain c) :
    c ∈ text ↔ c ∈ text' := by
  have hmem : ∀ {left right : Text}, SameBrackets left right → c ∈ left → c ∈ right := by
    intro left right hsame hmem
    obtain ⟨front, back, hleft⟩ := List.append_of_mem hmem
    obtain ⟨front', back', rfl, -, -⟩ := hsame.exists_append hc hleft
    simp
  exact ⟨hmem hsame, hmem hsame.symm⟩

theorem SameBrackets.not_isInfix_opening (hsame : SameBrackets text text')
    (hopening : ¬Literal.opening <:+: text) : ¬Literal.opening <:+: text' := by
  rintro ⟨before, after, htext⟩
  have hbracket : ¬IsPlain '[' := by decide
  have htext : text' = before ++ '[' :: ('[' :: after) := by
    rw [← htext]
    simp [Literal.opening]
  obtain ⟨left, right, rfl, -, hright⟩ := hsame.symm.exists_append hbracket htext
  obtain ⟨inner, rest, rfl, hinner, -⟩ := @SameBrackets.exists_append _ _ [] _ _ hright hbracket rfl
  cases hinner.eq_nil rfl
  exact hopening ⟨left, rest, by simp [Literal.opening]⟩

/-! ## Spellings -/

theorem sameBrackets_spellPercents (previous : Option Char) (text : Text) :
    SameBrackets text (spellPercents previous text) := by
  induction text generalizing previous with
  | nil => exact .nil
  | cons c text ih =>
    rw [spellPercents]
    split
    · next hfound =>
      obtain ⟨rfl, -⟩ := hfound
      have hfactor : ∀ c ∈ percentFactor, IsPlain c := List.all_iff_forall_prop.1 (by decide)
      exact .spell (by decide) (by decide) hfactor (ih _)
    · exact .char c (ih _)

theorem sameBrackets_spellFactorials {afterPoint : Bool} {spelled : Text}
    (hspelled : spellFactorials afterPoint text = .ok spelled) : SameBrackets text spelled := by
  induction afterPoint, text using spellFactorials.induct generalizing spelled with
  | case1 afterPoint =>
    rw [spellFactorials] at hspelled
    cases hspelled
    exact .nil
  | case2 afterPoint c text _ hc hfound ih =>
    obtain ⟨behind, hbehind⟩ := List.head?_eq_some_iff.1 hfound.1
    rw [spellFactorials, if_pos hc, if_pos hfound] at hspelled
    simp only [bind_eq_ok_iff, pure_eq_ok, Except.ok.injEq] at hspelled
    obtain ⟨product, hproduct, rest, hrest, rfl⟩ := hspelled
    have hrun : ∀ d ∈ c :: text.takeWhile Char.isDigit ++ ['!'], IsPlain d := by
      intro d hd
      simp only [List.mem_append, List.mem_cons, List.not_mem_nil, or_false] at hd
      rcases hd with (rfl | hd) | rfl
      · exact isPlain_of_isDigit hc
      · exact isPlain_of_isDigit (List.mem_takeWhile_imp hd)
      · decide
    have hsplit : c :: text = (c :: text.takeWhile Char.isDigit ++ ['!']) ++ behind := by
      simp [← hbehind]
    rw [hbehind, List.tail_cons] at ih hrest
    rw [hsplit]
    exact .plain (by simp) (writtenFactorial_ne_nil hproduct) hrun
      (fun d hd => isPlain_of_mem_number (fun e he => not_mem_writtenFactorial he hproduct) hd)
      (ih hrest)
  | case3 afterPoint c text _ hc hmissing ih =>
    rw [spellFactorials, if_pos hc, if_neg hmissing] at hspelled
    simp only [bind_eq_ok_iff, pure_eq_ok, Except.ok.injEq] at hspelled
    obtain ⟨rest, hrest, rfl⟩ := hspelled
    conv_lhs => rw [← List.takeWhile_append_dropWhile (p := Char.isDigit) (l := text)]
    exact (sameBrackets_refl (c :: text.takeWhile Char.isDigit)).append _ (ih hrest)
  | case4 afterPoint c text _ hc ih =>
    rw [spellFactorials, if_neg hc] at hspelled
    simp only [bind_eq_ok_iff, pure_eq_ok, Except.ok.injEq] at hspelled
    obtain ⟨rest, hrest, rfl⟩ := hspelled
    exact .char c (ih hrest)

theorem sameBrackets_spellConstants (previous : Option Char) (text : Text) :
    SameBrackets text (spellConstants previous text) := by
  induction text generalizing previous with
  | nil => exact .nil
  | cons c text ih =>
    have he : ∀ c ∈ eDigits, IsPlain c := List.all_iff_forall_prop.1 (by decide)
    have hpi : ∀ c ∈ piDigits, IsPlain c := List.all_iff_forall_prop.1 (by decide)
    have hfactor : ∀ factor : Bool, ∀ c ∈ (if factor then [Symbol.times] else []), IsPlain c := by
      intro factor
      cases factor
      · exact fun c hc => absurd hc List.not_mem_nil
      · exact List.forall_mem_singleton.2 (by decide)
    simp only [spellConstants]
    split
    · next hfound =>
      obtain ⟨rfl, -⟩ := hfound
      exact .spell (by decide) (by decide) he (ih _)
    split
    · next hfound =>
      subst hfound
      refine .spell (by decide) ?_ ?_ (ih _)
      · simp [show piDigits ≠ [] by decide]
      · simp only [List.forall_mem_append]
        exact ⟨⟨hfactor _, hpi⟩, hfactor _⟩
    · exact .char c (ih _)

end Expression

end MatrixCalculator
