import MatrixCalculator.Proofs.Numeral.Typed
import MatrixCalculator.Scalar.Token

/-!
# Typed numerals as lexemes

The scan for a numeral takes the longest typed numeral at the head of a text.  So a
numeral is found again wherever it stands, as long as what follows does not go on with
it, and every lexeme that is a number is the text of a numeral.
-/

namespace MatrixCalculator.Scalar

open Numeral Text

variable {text rest : Text} {token : Token} {s : TypedNumeral}

/-! ## Exponents -/

theorem behindMark_append (d : DigitText) (hrest : EndsDigits rest) (mark : Nat) :
    exponentLength.behindMark mark (d.text ++ rest) = mark + d.text.length := by
  have hne : d.text.length ≠ 0 := fun h => d.ne_nil (List.eq_nil_of_length_eq_zero h)
  rw [exponentLength.behindMark, takeWhile_run d.isDigit hrest]
  exact if_neg hne

/-- An exponent is measured up to its last digit. -/
theorem exponentLength_typed (e : TypedExponent) (hrest : EndsDigits rest) :
    exponentLength (e.text ++ rest) = e.text.length := by
  obtain ⟨mark, hmark, sign, hsign, d⟩ := e
  have hbehind : ∀ mark, exponentLength.behindMark mark (d.text ++ rest) = mark + d.text.length :=
    behindMark_append d hrest
  obtain ⟨c, others, hdigits, hc⟩ := d.exists_cons
  have hminus := ne_of_isDigit hc (show '-'.isDigit = false by decide)
  have hplus := ne_of_isDigit hc (show '+'.isDigit = false by decide)
  have hunsigned : exponentLength (mark :: (d.text ++ rest)) =
      exponentLength.behindMark 1 (d.text ++ rest) := by
    rw [exponentLength, if_pos hmark]
    all_goals
      rw [hdigits]
      intro tail heq
    · exact hminus (List.cons.inj heq).1
    · exact hplus (List.cons.inj heq).1
  simp only [TypedExponent.text, List.cons_append, List.append_assoc, List.length_cons,
    List.length_append]
  rcases hsign with rfl | rfl | rfl
  · rw [List.nil_append, hunsigned, hbehind, List.length_nil]
    omega
  · rw [List.singleton_append, exponentLength, if_pos hmark, hbehind, List.length_singleton]
    omega
  · rw [List.singleton_append, exponentLength, if_pos hmark, hbehind, List.length_singleton]
    omega

theorem exists_digits_of_behindMark {mark : Nat}
    (hlength : exponentLength.behindMark mark text ≠ 0) :
    ∃ (d : DigitText) (rest : Text), text = d.text ++ rest ∧ EndsDigits rest := by
  have hne : text.takeWhile Char.isDigit ≠ [] := by
    intro hempty
    rw [exponentLength.behindMark, hempty] at hlength
    exact hlength rfl
  exact ⟨⟨_, hne, forall_isDigit_takeWhile text⟩, _, List.takeWhile_append_dropWhile.symm,
    head?_dropWhile text⟩

/-- What has the length of an exponent begins with one. -/
theorem exists_typedExponent (hlength : exponentLength text ≠ 0) :
    ∃ (e : TypedExponent) (rest : Text), text = e.text ++ rest ∧ EndsDigits rest := by
  cases text with
  | nil => exact absurd rfl hlength
  | cons mark tail =>
    rw [exponentLength.eq_def] at hlength
    dsimp only at hlength
    split at hlength
    · next hmark =>
      split at hlength
      · obtain ⟨d, rest, rfl, hrest⟩ := exists_digits_of_behindMark hlength
        exact ⟨⟨mark, hmark, ['-'], .inr (.inl rfl), d⟩, rest, rfl, hrest⟩
      · obtain ⟨d, rest, rfl, hrest⟩ := exists_digits_of_behindMark hlength
        exact ⟨⟨mark, hmark, ['+'], .inr (.inr rfl), d⟩, rest, rfl, hrest⟩
      · obtain ⟨d, rest, rfl, hrest⟩ := exists_digits_of_behindMark hlength
        exact ⟨⟨mark, hmark, [], .inl rfl, d⟩, rest, rfl, hrest⟩
    · exact absurd rfl hlength

theorem plain_mark {mark : Char} {sign : Text} (hmark : mark = 'e' ∨ mark = 'E')
    (hsign : sign = [] ∨ sign = ['-'] ∨ sign = ['+']) :
    ∀ c ∈ mark :: sign, c.isDigit = false ∧ c ≠ '.' := by
  refine List.forall_mem_cons.2 ⟨?_, ?_⟩
  · rcases hmark with rfl | rfl <;> decide
  · rcases hsign with rfl | rfl | rfl <;> exact List.all_iff_forall_prop.1 (by decide)

/-- A digit behind a mark and a sign makes an exponent, however it goes on. -/
theorem exponentLength_ne_zero_iff : exponentLength text ≠ 0 ↔
    ∃ mark sign c rest, (mark = 'e' ∨ mark = 'E') ∧ (sign = [] ∨ sign = ['-'] ∨ sign = ['+']) ∧
      c.isDigit = true ∧ text = mark :: sign ++ c :: rest := by
  constructor
  · intro hlength
    obtain ⟨e, rest, rfl, -⟩ := exists_typedExponent hlength
    obtain ⟨c, others, hdigits, hc⟩ := e.digits.exists_cons
    exact ⟨e.mark, e.sign, c, others ++ rest, e.isMark, e.isSign, hc,
      by simp [TypedExponent.text, hdigits]⟩
  · rintro ⟨mark, sign, c, rest, hmark, hsign, hc, rfl⟩
    have hrun : ∀ d ∈ c :: rest.takeWhile Char.isDigit, d.isDigit = true :=
      List.forall_mem_cons.2 ⟨hc, forall_isDigit_takeWhile rest⟩
    have htext : mark :: sign ++ c :: rest =
        (TypedExponent.mk mark hmark sign hsign ⟨_, List.cons_ne_nil _ _, hrun⟩).text ++
          rest.dropWhile Char.isDigit := by
      simp [TypedExponent.text, List.takeWhile_append_dropWhile]
    rw [htext, exponentLength_typed _ (head?_dropWhile rest)]
    exact Nat.succ_ne_zero _

/-! ## The end of a numeral -/

/-- Whether a text does not go on with the numeral in front of it. -/
def EndsTyped (s : TypedNumeral) (rest : Text) : Prop :=
  EndsDigits rest ∧
    (s.exponent = none → exponentLength rest = 0 ∧ (s.fraction = none → rest.head? ≠ some '.'))

theorem endsTyped_nil : EndsTyped s [] := ⟨endsDigits_nil, fun _ => ⟨rfl, fun _ => nofun⟩⟩

theorem exponentLength_exponentText (hrest : EndsTyped s rest) :
    exponentLength (s.exponentText ++ rest) = s.exponentText.length := by
  rw [TypedNumeral.exponentText]
  cases hexponent : s.exponent with
  | none => exact (hrest.2 hexponent).1
  | some e => exact exponentLength_typed e hrest.1

theorem exponentText_ne_point (hrest : EndsTyped s rest) (hfraction : s.fraction = none)
    {tail : Text} : s.exponentText ++ rest ≠ '.' :: tail := by
  cases hexponent : s.exponent with
  | none =>
    intro heq
    rw [TypedNumeral.exponentText, hexponent] at heq
    exact (hrest.2 hexponent).2 hfraction (by rw [show rest = '.' :: tail from heq]; rfl)
  | some e =>
    intro heq
    rw [TypedNumeral.exponentText, hexponent] at heq
    exact e.mark_ne_point (List.cons.inj heq).1

theorem mantissaLength_typed (hrest : EndsTyped s rest) :
    mantissaLength (s.text ++ rest) =
      (s.whole.length + s.fractionText.length, s.whole.length + s.fractionDigits.length) := by
  have hends := s.endsDigits_fractionText hrest.1
  have hmark := s.endsDigits_exponentText hrest.1
  have hdigits := s.isDigit_fractionDigits
  have hsplit : s.text ++ rest = s.whole ++ (s.fractionText ++ (s.exponentText ++ rest)) := by
    simp [TypedNumeral.text]
  rw [mantissaLength, hsplit]
  simp only [takeWhile_run s.isDigit_whole hends, List.drop_left]
  cases hfraction : s.fraction with
  | some digits =>
    simp only [TypedNumeral.fractionDigits, TypedNumeral.fractionText, hfraction,
      Option.elim_some, Option.getD_some, List.cons_append] at hdigits ⊢
    simp only [takeWhile_run hdigits hmark, List.length_cons]
    rw [Nat.add_assoc, Nat.add_comm 1]
  | none =>
    simp only [TypedNumeral.fractionDigits, TypedNumeral.fractionText, hfraction,
      Option.elim_none, Option.getD_none, List.nil_append]
    split
    · next tail heq => exact absurd heq (exponentText_ne_point hrest hfraction)
    · rfl

/-- A numeral is scanned up to its end. -/
theorem scanNumeral_typed (hrest : EndsTyped s rest) (offset : Nat) :
    scanNumeral offset (s.text ++ rest) = .ok (.number s.value, s.text.length) := by
  have hdigits : s.whole.length + s.fractionDigits.length ≠ 0 := by
    have hpos := List.length_pos_iff.2 s.hasDigit
    rw [List.length_append] at hpos
    exact hpos.ne'
  have hdrop : (s.text ++ rest).drop (s.whole.length + s.fractionText.length) =
      s.exponentText ++ rest := by
    rw [← List.length_append, TypedNumeral.text, ← List.append_assoc, List.append_assoc _ _ rest,
      List.drop_left]
  have hlength : s.whole.length + s.fractionText.length + s.exponentText.length =
      s.text.length := by
    simp only [TypedNumeral.text, List.length_append]
    omega
  have hread : readDecimal? s.text = some s.decimal :=
    readDecimal?_eq_some_iff.2 ⟨s, rfl, rfl⟩
  simp only [scanNumeral, mantissaLength_typed hrest, if_neg hdigits, hdrop,
    exponentLength_exponentText hrest, hlength, List.take_left, hread]
  rfl

/-- A text in which a numeral can begin does begin with one. -/
theorem exists_typedNumeral (hdigits : (mantissaLength text).2 ≠ 0) :
    ∃ (s : TypedNumeral) (rest : Text), text = s.text ++ rest ∧ EndsTyped s rest := by
  have hwhole := forall_isDigit_takeWhile text
  have hsplit := List.takeWhile_append_dropWhile (p := Char.isDigit) (l := text)
  simp only [mantissaLength, drop_length_takeWhile] at hdigits
  -- the exponent is taken off what is behind the digits, once the fraction is known
  have hexponent : ∀ behind : Text, EndsDigits behind →
      ∃ (exponent : Option TypedExponent) (rest : Text),
        behind = exponent.elim [] TypedExponent.text ++ rest ∧ EndsDigits rest ∧
          (exponent = none → exponentLength rest = 0) := by
    intro behind hbehind
    by_cases hlength : exponentLength behind = 0
    · exact ⟨none, behind, rfl, hbehind, fun _ => hlength⟩
    · obtain ⟨e, rest, htext, hrest⟩ := exists_typedExponent hlength
      exact ⟨some e, rest, htext, hrest, nofun⟩
  split at hdigits
  · next tail hpoint =>
    obtain ⟨exponent, rest, htail, hrest, hnone⟩ := hexponent _ (head?_dropWhile tail)
    refine ⟨⟨text.takeWhile Char.isDigit, some (tail.takeWhile Char.isDigit), exponent, ?_, ?_⟩,
      rest, ?_, hrest, fun h => ⟨hnone h, nofun⟩⟩
    · exact List.forall_mem_append.2 ⟨hwhole, forall_isDigit_takeWhile tail⟩
    · rw [← List.length_pos_iff, Option.getD_some, List.length_append]
      exact Nat.pos_of_ne_zero hdigits
    · conv_lhs => rw [← hsplit, hpoint,
        ← List.takeWhile_append_dropWhile (p := Char.isDigit) (l := tail), htail]
      simp [TypedNumeral.text, TypedNumeral.fractionText, TypedNumeral.exponentText]
  · next hpoint =>
    obtain ⟨exponent, rest, htail, hrest, hnone⟩ := hexponent _ (head?_dropWhile text)
    refine ⟨⟨text.takeWhile Char.isDigit, none, exponent, by simpa using hwhole, ?_⟩,
      rest, ?_, hrest, fun h => ⟨hnone h, fun _ hhead => ?_⟩⟩
    · rw [← List.length_pos_iff, Option.getD_none, List.append_nil]
      exact Nat.pos_of_ne_zero hdigits
    · conv_lhs => rw [← hsplit, htail]
      simp [TypedNumeral.text, TypedNumeral.fractionText, TypedNumeral.exponentText]
    · obtain ⟨others, rfl⟩ := List.head?_eq_some_iff.1 hhead
      obtain rfl : exponent = none := h
      exact hpoint others htail

/-- What is scanned as a number is the text of a numeral. -/
theorem exists_of_scanNumeral {offset length : Nat}
    (hscan : scanNumeral offset text = .ok (token, length)) :
    ∃ (s : TypedNumeral) (rest : Text), text = s.text ++ rest ∧ EndsTyped s rest ∧
      token = .number s.value ∧ length = s.text.length := by
  have hdigits : (mantissaLength text).2 ≠ 0 := by
    intro hnone
    simp [scanNumeral, hnone] at hscan
  obtain ⟨s, rest, rfl, hrest⟩ := exists_typedNumeral hdigits
  rw [scanNumeral_typed hrest] at hscan
  obtain ⟨rfl, rfl⟩ := Prod.mk.inj (Except.ok.inj hscan)
  exact ⟨s, rest, rfl, hrest, rfl, rfl⟩

end MatrixCalculator.Scalar
