import MatrixCalculator.Expression.Spelling
import MatrixCalculator.Proofs.Expression.ValueText
import MatrixCalculator.Proofs.Outcome

/-!
# Marks in joined texts

The passes that spell percent and factorial marks look at the digits beside a mark and
no further.  So they can be made on two texts one after the other, wherever something
else than a digit stands between the two, and they leave parentheses as they are.
-/

namespace MatrixCalculator.Expression

open Numeral Outcome Text

variable {c : Char} {left right text : Text} {previous : Option Char} {afterPoint : Bool}

theorem takeWhile_append_cons {p : Char → Bool} (hc : p c = false) :
    (left ++ c :: right).takeWhile p = left.takeWhile p := by
  induction left with
  | nil => simp [hc]
  | cons d left ih => simp only [List.cons_append, List.takeWhile_cons, ih]

theorem dropWhile_append_cons {p : Char → Bool} (hc : p c = false) :
    (left ++ c :: right).dropWhile p = left.dropWhile p ++ c :: right := by
  induction left with
  | nil => simp [hc]
  | cons d left ih =>
    simp only [List.cons_append, List.dropWhile_cons, ih]
    split <;> rfl

/-- Percent marks are spelled on both sides of a character that is no digit. -/
theorem spellPercents_append (hc : c.isDigit = false) :
    spellPercents previous (left ++ c :: right) =
      spellPercents previous left ++ spellPercents (ending previous left) (c :: right) := by
  induction left generalizing previous with
  | nil => rfl
  | cons d left ih =>
    have hnext : isDigit? (left ++ c :: right).head? = isDigit? left.head? := by
      cases left with
      | nil => simp [isDigit?, hc]
      | cons e left => rfl
    rw [List.cons_append, spellPercents, spellPercents, hnext, ih]
    split
    · exact (List.append_assoc ..).symm
    · rfl

theorem spellFactorials_cons (hc : c.isDigit = false) :
    spellFactorials afterPoint (c :: right) = (c :: ·) <$> spellFactorials (c == '.') right := by
  rw [spellFactorials, if_neg (by simp [hc]), map_eq_pure_bind]

/-- Factorials are spelled on both sides of a character that is neither a digit nor their
mark. -/
theorem spellFactorials_append (hc : c.isDigit = false) (hmark : c ≠ '!') :
    spellFactorials afterPoint (left ++ c :: right) = (do
      let first ← spellFactorials afterPoint left
      let second ← spellFactorials false (c :: right)
      return first ++ second) := by
  induction afterPoint, left using spellFactorials.induct with
  | case1 afterPoint =>
    rw [List.nil_append, spellFactorials_cons hc, spellFactorials_cons hc, spellFactorials,
      pure_bind]
    exact (bind_pure _).symm
  | case2 afterPoint d left _ hd hfound ih =>
    obtain ⟨behind, hbehind⟩ := List.head?_eq_some_iff.1 hfound.1
    have hjoined : (left.dropWhile Char.isDigit ++ c :: right).head? = some '!' := by
      rw [hbehind]
      rfl
    rw [hbehind, List.tail_cons] at ih
    rw [List.cons_append, spellFactorials, if_pos hd, takeWhile_append_cons hc,
      dropWhile_append_cons hc, if_pos ⟨hjoined, hfound.2⟩, spellFactorials, if_pos hd,
      if_pos hfound, hbehind, List.cons_append, List.tail_cons, List.tail_cons, ih]
    simp
  | case3 afterPoint d left _ hd hmissing ih =>
    have hjoined : ¬((left.dropWhile Char.isDigit ++ c :: right).head? = some '!' ∧
        (!afterPoint) = true) := by
      cases hbehind : left.dropWhile Char.isDigit with
      | nil => exact fun h => hmark (Option.some.inj h.1)
      | cons e behind =>
        rw [hbehind] at hmissing
        exact hmissing
    rw [List.cons_append, spellFactorials, if_pos hd, takeWhile_append_cons hc,
      dropWhile_append_cons hc, if_neg hjoined, spellFactorials, if_pos hd, if_neg hmissing, ih]
    simp
  | case4 afterPoint d left _ hd ih =>
    rw [List.cons_append, spellFactorials, if_neg hd, spellFactorials, if_neg hd, ih]
    simp

/-! ## What the marks leave -/

/-- Percent marks become factors, and nothing else of a text changes. -/
theorem count_spellPercents {d : Char} (hd : d ∉ '%' :: percentFactor) :
    (spellPercents previous text).count d = text.count d := by
  induction text generalizing previous with
  | nil => rfl
  | cons c text ih =>
    rw [spellPercents]
    split
    · next hfound =>
      have hmark : c ≠ d := fun heq => hd (by simp [← heq, hfound.1])
      rw [List.count_append, ih, List.count_cons_of_ne hmark,
        List.count_eq_zero_of_not_mem fun h => hd (List.mem_cons_of_mem _ h), Nat.zero_add]
    · rw [List.count_cons, List.count_cons, ih]

theorem mem_numberAlphabet_of_isDigit (hc : c.isDigit = true) : c ∈ numberAlphabet :=
  of_isDigit (fun c => c ∈ numberAlphabet) (List.all_iff_forall_prop.1 (by decide)) hc

theorem not_mem_writtenFactorial {digits product : Text} {d : Char} (hd : d ∉ numberAlphabet)
    (hproduct : writtenFactorial digits = .ok product) : d ∉ product := by
  simp only [writtenFactorial] at hproduct
  split at hproduct
  · rw [Factorial.write] at hproduct
    split at hproduct
    · cases hproduct
      exact fun hmem => hd (mem_numberAlphabet_of_isDigit (isDigit_of_mem_digitsOf hmem))
    · obtain ⟨x, -, rfl⟩ := map_eq_ok_iff.1 hproduct
      exact not_mem_number x hd
  · cases hproduct

theorem count_takeWhile {p : Char → Bool} {d : Char} (hd : p d = false) :
    (text.takeWhile p).count d = 0 := by
  refine List.count_eq_zero_of_not_mem fun hmem => ?_
  rw [List.mem_takeWhile_imp hmem] at hd
  cases hd

theorem count_dropWhile {p : Char → Bool} {d : Char} (hd : p d = false) :
    (text.dropWhile p).count d = text.count d := by
  conv_rhs => rw [← List.takeWhile_append_dropWhile (p := p) (l := text), List.count_append,
    count_takeWhile hd, Nat.zero_add]

/-- Factorials become numerals, and nothing else of a text changes. -/
theorem count_spellFactorials {spelled : Text} {d : Char} (hd : d ∉ numberAlphabet)
    (hmark : d ≠ '!') (hspelled : spellFactorials afterPoint text = .ok spelled) :
    spelled.count d = text.count d := by
  have hdigit : d.isDigit = false := by
    rw [← Bool.not_eq_true]
    exact fun h => hd (mem_numberAlphabet_of_isDigit h)
  induction afterPoint, text using spellFactorials.induct generalizing spelled with
  | case1 afterPoint =>
    rw [spellFactorials] at hspelled
    cases hspelled
    rfl
  | case2 afterPoint c text _ hc hfound ih =>
    obtain ⟨behind, hbehind⟩ := List.head?_eq_some_iff.1 hfound.1
    rw [spellFactorials, if_pos hc, if_pos hfound] at hspelled
    simp only [bind_eq_ok_iff, pure_eq_ok, Except.ok.injEq] at hspelled
    obtain ⟨product, hproduct, rest, hrest, rfl⟩ := hspelled
    have hnone : product.count d = 0 :=
      List.count_eq_zero_of_not_mem (not_mem_writtenFactorial hd hproduct)
    have hskipped : (text.dropWhile Char.isDigit).count d = text.count d := count_dropWhile hdigit
    rw [List.count_append, hnone, ih hrest, List.count_cons_of_ne (ne_of_isDigit hc hdigit),
      ← hskipped, hbehind, List.tail_cons, List.count_cons_of_ne (Ne.symm hmark), Nat.zero_add]
  | case3 afterPoint c text _ hc hmissing ih =>
    rw [spellFactorials, if_pos hc, if_neg hmissing] at hspelled
    simp only [bind_eq_ok_iff, pure_eq_ok, Except.ok.injEq] at hspelled
    obtain ⟨rest, hrest, rfl⟩ := hspelled
    rw [List.cons_append, List.count_cons_of_ne (ne_of_isDigit hc hdigit),
      List.count_cons_of_ne (ne_of_isDigit hc hdigit), List.count_append, count_takeWhile hdigit,
      ih hrest, count_dropWhile hdigit, Nat.zero_add]
  | case4 afterPoint c text _ hc ih =>
    rw [spellFactorials, if_neg hc] at hspelled
    simp only [bind_eq_ok_iff, pure_eq_ok, Except.ok.injEq] at hspelled
    obtain ⟨rest, hrest, rfl⟩ := hspelled
    rw [List.count_cons, List.count_cons, ih hrest]

end MatrixCalculator.Expression
