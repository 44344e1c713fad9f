import MatrixCalculator.Base.Input
import MatrixCalculator.Proofs.Expression.ValueText
import MatrixCalculator.Proofs.Outcome

/-!
# What replacing the numerals leaves

A numeral of a base is replaced by digits, and by the words for the doubles that have
none.  All other characters stay in their order, so whatever is not part of a numeral
can be looked for before or after the numerals are replaced.
-/

namespace MatrixCalculator.Base

open Expression Numeral Outcome

variable {base : Base} {point c : Char} {text whole fraction numeral decimal : Text}

theorem takeFraction_cons {d : Char} (hd : isNumeralChar d = true) :
    takeFraction point (point :: d :: text) =
      (d :: text.takeWhile isNumeralChar, text.dropWhile isNumeralChar) :=
  if_pos ⟨rfl, hd⟩

theorem takeFraction_of_ne
    (hne : ∀ d rest, text = point :: d :: rest → isNumeralChar d = false) :
    takeFraction point text = ([], text) := by
  unfold takeFraction
  split
  · next mark d rest =>
    refine if_neg ?_
    rintro ⟨rfl, hd⟩
    rw [hne d rest rfl] at hd
    cases hd
  · rfl

/-- What a fraction takes from a text: nothing, or the point and digits. -/
theorem takeFraction_append (point : Char) (text : Text) :
    (if (takeFraction point text).1 = [] then [] else point :: (takeFraction point text).1) ++
      (takeFraction point text).2 = text := by
  by_cases hfraction : ∃ d rest, text = point :: d :: rest ∧ isNumeralChar d = true
  · obtain ⟨d, rest, rfl, hd⟩ := hfraction
    rw [takeFraction_cons hd, if_neg (List.cons_ne_nil d _), List.cons_append, List.cons_append,
      List.takeWhile_append_dropWhile]
  · rw [takeFraction_of_ne]
    · rfl
    · intro d rest htext
      by_contra hd
      rw [Bool.not_eq_false] at hd
      exact hfraction ⟨d, rest, htext, hd⟩

theorem isNumeralChar_of_mem_takeFraction (hc : c ∈ (takeFraction point text).1) :
    isNumeralChar c = true := by
  unfold takeFraction at hc
  split at hc
  · split at hc
    · next hdigit =>
      rcases List.mem_cons.1 hc with rfl | hc
      · exact hdigit.2
      · exact List.mem_takeWhile_imp hc
    · cases hc
  · cases hc

theorem exists_takeFraction_append (point : Char) (text : Text) :
    ∃ part, text = part ++ (takeFraction point text).2 ∧
      ∀ c ∈ part, c = point ∨ isNumeralChar c = true := by
  refine ⟨_, (takeFraction_append point text).symm, ?_⟩
  split
  · exact nofun
  · exact List.forall_mem_cons.2
      ⟨.inl rfl, fun c hc => .inr (isNumeralChar_of_mem_takeFraction hc)⟩

/-- The characters that a numeral is replaced by. -/
theorem forall_mem_decimalText {p : Char → Prop} (hpoint : p point)
    (halphabet : ∀ c ∈ numberAlphabet, p c)
    (hnumeral : base.decimalText point whole fraction = .ok numeral) : ∀ c ∈ numeral, p c := by
  simp only [decimalText, bind_eq_ok_iff, pure_eq_ok, Except.ok.injEq] at hnumeral
  obtain ⟨wholeDigits, -, fractionDigits, -, rfl⟩ := hnumeral
  intro c hc
  obtain ⟨d, hd, rfl⟩ := List.mem_map.1 hc
  split
  · exact hpoint
  · exact halphabet d (by_contra fun hne => not_mem_writePositional _ hne hd)

/-- The characters that are found in no numeral, neither before nor after it is
replaced, stay as they are. -/
theorem filter_convertNumerals {p : Char → Bool}
    (hnumerals : ∀ c, isNumeralChar c = true → p c = false) (hpoint : p point = false)
    (halphabet : ∀ c ∈ numberAlphabet, p c = false) :
    ∀ decimal, base.convertNumerals point text = .ok decimal →
      decimal.filter p = text.filter p := by
  have hnone : ∀ part : Text, (∀ c ∈ part, p c = false) → part.filter p = [] := fun part hpart =>
    List.filter_eq_nil_iff.2 fun c hc => by rw [hpart c hc]; exact Bool.false_ne_true
  induction text using convertNumerals.induct point with
  | case1 =>
    rw [convertNumerals]
    rintro decimal ⟨⟩
    rfl
  | case2 c text hc afterWhole ih =>
    intro decimal hdecimal
    rw [convertNumerals, if_pos hc] at hdecimal
    simp only [bind_eq_ok_iff, pure_eq_ok, Except.ok.injEq] at hdecimal
    obtain ⟨numeral, hnumeral, rest, hrest, rfl⟩ := hdecimal
    obtain ⟨part, hpart, hchars⟩ := exists_takeFraction_append point (text.dropWhile isNumeralChar)
    have hfraction : part.filter p = [] := hnone part fun d hd => by
      rcases hchars d hd with rfl | hd
      · exact hpoint
      · exact hnumerals d hd
    have hwhole : (c :: text.takeWhile isNumeralChar).filter p = [] :=
      hnone _ (List.forall_mem_cons.2 ⟨hnumerals c hc, fun d hd =>
        hnumerals d (List.mem_takeWhile_imp hd)⟩)
    have hreplaced : numeral.filter p = [] :=
      hnone numeral (forall_mem_decimalText (p := fun c => p c = false) hpoint halphabet hnumeral)
    have htext : c :: text = (c :: text.takeWhile isNumeralChar) ++
        (part ++ (takeFraction point (text.dropWhile isNumeralChar)).2) := by
      rw [← hpart, List.cons_append, List.takeWhile_append_dropWhile]
    rw [htext, List.filter_append, List.filter_append, List.filter_append, hwhole, hfraction,
      hreplaced, ih rest hrest]
    rfl
  | case3 c text hc ih =>
    intro decimal hdecimal
    rw [convertNumerals, if_neg hc] at hdecimal
    obtain ⟨rest, hrest, rfl⟩ := map_eq_ok_iff.1 hdecimal
    rw [List.filter_cons, List.filter_cons, ih rest hrest]

theorem filter_toDecimal {p : Char → Bool} (hnumerals : ∀ c, isNumeralChar c = true → p c = false)
    (hpoint : p point = false) (halphabet : ∀ c ∈ numberAlphabet, p c = false)
    (hdecimal : base.toDecimal point text = .ok decimal) : decimal.filter p = text.filter p := by
  rw [toDecimal] at hdecimal
  split at hdecimal
  · cases hdecimal
    rfl
  · exact filter_convertNumerals hnumerals hpoint halphabet decimal hdecimal

end MatrixCalculator.Base
