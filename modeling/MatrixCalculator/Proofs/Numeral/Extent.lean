import MatrixCalculator.Numeral.Extent
import MatrixCalculator.Proofs.Numeral.Written
import MatrixCalculator.Proofs.Scalar.Lexemes

/-!
# Where written numerals end

A numeral inside a longer text is found as a whole if what follows cannot go on with it
and its exponent has the small mark.  Written numbers have no other mark.
-/

namespace MatrixCalculator.Numeral

open Scalar

variable {text rest : Text} {s : Spelling}

/-- Whether a numeral has no mark but the small one. -/
def Spelling.HasSmallMark (s : Spelling) : Prop := ∀ e ∈ s.exponent, e.mark = 'e'

instance (s : Spelling) : Decidable s.HasSmallMark :=
  inferInstanceAs (Decidable (∀ e ∈ s.exponent, _))

theorem digitRun_append (d : DigitText) (hrest : EndsDigits rest) :
    digitRun (d.text ++ rest) = d.text.length := by
  rw [digitRun, Text.takeWhile_run d.isDigit hrest]

theorem digitText_length_ne_zero (d : DigitText) : d.text.length ≠ 0 :=
  fun h => d.ne_nil (List.eq_nil_of_length_eq_zero h)

theorem exponentText_append_ne_point (s : Spelling) (hrest : EndsNumeral rest) {tail : Text} :
    s.exponentText ++ rest ≠ '.' :: tail := by
  rw [Spelling.exponentText]
  intro heq
  cases hexponent : s.exponent with
  | none =>
    rw [hexponent] at heq
    exact (hrest '.' (by rw [show rest = '.' :: tail from heq]; rfl)).2.1 rfl
  | some e =>
    rw [hexponent] at heq
    exact e.typed.mark_ne_point (List.cons.inj heq).1

theorem fractionExtent_append (s : Spelling) (hrest : EndsNumeral rest) :
    fractionExtent (s.fractionText ++ (s.exponentText ++ rest)) = s.fractionText.length := by
  have hmark := s.endsDigits_exponentText hrest.endsDigits
  rw [Spelling.fractionText]
  cases s.fraction with
  | some d =>
    rw [Option.elim_some, List.cons_append, fractionExtent, digitRun_append d hmark,
      if_neg (digitText_length_ne_zero d), List.length_cons]
  | none =>
    rw [Option.elim_none, List.nil_append, fractionExtent.eq_def]
    split
    · next tail heq => exact absurd heq (exponentText_append_ne_point s hrest)
    · rfl

theorem exponentExtent_append (hmark : s.HasSmallMark) (hrest : EndsNumeral rest) :
    exponentExtent (s.exponentText ++ rest) = s.exponentText.length := by
  rw [Spelling.exponentText]
  cases hexponent : s.exponent with
  | none =>
    rw [Option.elim_none, List.nil_append]
    cases rest with
    | nil => rfl
    | cons c rest =>
      obtain ⟨-, -, hlower, -⟩ := hrest c rfl
      rw [exponentExtent.eq_def]
      split
      · next heq => exact absurd (List.cons.inj heq).1 hlower
      · next heq => exact absurd (List.cons.inj heq).1 hlower
      · rfl
  | some e =>
    have hsmall := hmark e hexponent
    obtain ⟨mark, _, negative, digits⟩ := e
    obtain rfl : mark = 'e' := hsmall
    rw [Option.elim_some, ExponentText.text, ExponentText.sign]
    cases negative with
    | true =>
      simp only [if_true, List.cons_append, List.nil_append, exponentExtent,
        digitRun_append digits hrest.endsDigits, if_neg (digitText_length_ne_zero digits),
        List.length_cons]
    | false =>
      obtain ⟨c, others, htext, hc⟩ := digits.exists_cons
      have hrun := digitRun_append digits hrest.endsDigits
      have hne := digitText_length_ne_zero digits
      simp only [Bool.false_eq_true, if_false, List.nil_append, List.cons_append, List.length_cons]
      rw [exponentExtent]
      · rw [hrun, if_neg hne]
      · intro tail heq
        rw [htext] at heq
        exact ne_of_isDigit hc (by decide) (List.cons.inj heq).1

theorem extent_append (hmark : s.HasSmallMark) (hrest : EndsNumeral rest) :
    extent (s.text ++ rest) = s.text.length := by
  have hsplit : s.text ++ rest = s.whole.text ++ (s.fractionText ++ (s.exponentText ++ rest)) := by
    simp [Spelling.text]
  have hmantissa : (s.whole.text ++ (s.fractionText ++ (s.exponentText ++ rest))).drop
      (s.whole.text.length + s.fractionText.length) = s.exponentText ++ rest := by
    rw [← List.length_append, ← List.append_assoc, List.drop_left]
  rw [hsplit, extent]
  simp only [digitRun_append s.whole (s.endsDigits_fractionText hrest.endsDigits),
    if_neg (digitText_length_ne_zero s.whole), List.drop_left, fractionExtent_append s hrest,
    hmantissa, exponentExtent_append hmark hrest, Spelling.text, List.length_append]
  exact Nat.add_assoc ..

theorem signedExtent_append {s : SignedSpelling} (hmark : s.magnitude.HasSmallMark)
    (hrest : EndsNumeral rest) : signedExtent (s.text ++ rest) = s.text.length := by
  obtain ⟨negative, s⟩ := s
  obtain ⟨c, others, htext, hc⟩ := s.exists_cons
  have hextent := extent_append hmark hrest
  cases negative with
  | true =>
    have hne : s.text.length ≠ 0 := by simp [htext]
    change signedExtent ('-' :: (s.text ++ rest)) = ('-' :: s.text).length
    rw [signedExtent, hextent, if_neg hne, List.length_cons]
  | false =>
    change signedExtent (s.text ++ rest) = s.text.length
    rw [htext] at hextent ⊢
    rw [signedExtent]
    · exact hextent
    · intro tail heq
      exact ne_of_isDigit hc (by decide) (List.cons.inj heq).1

/-! ## Texts that begin with no numeral -/

theorem extent_eq_zero_iff : extent text = 0 ↔ EndsDigits text := by
  have hrun : digitRun text = 0 ↔ EndsDigits text := by
    rw [digitRun]
    cases text with
    | nil => simp [EndsDigits]
    | cons c text => simp [EndsDigits, List.takeWhile_cons]
  rw [← hrun, extent]
  dsimp only
  split <;> omega

theorem exists_take_digitRun (hrun : digitRun text ≠ 0) :
    ∃ d : DigitText, d.text = text.take (digitRun text) := by
  have hrun' : text.take (digitRun text) = text.takeWhile Char.isDigit :=
    (List.prefix_iff_eq_take.1 (List.takeWhile_prefix Char.isDigit)).symm
  refine ⟨⟨text.takeWhile Char.isDigit, fun hnil => hrun ?_, forall_isDigit_takeWhile text⟩,
    hrun'.symm⟩
  rw [digitRun, hnil, List.length_nil]

theorem exists_take_fractionExtent (text : Text) : ∃ fraction : Option DigitText,
    fraction.elim [] (fun digits => '.' :: digits.text) = text.take (fractionExtent text) := by
  rw [fractionExtent.eq_def]
  split
  · next digits =>
    split
    · exact ⟨none, rfl⟩
    · next hrun =>
      obtain ⟨d, hd⟩ := exists_take_digitRun hrun
      exact ⟨some d, by rw [Option.elim_some, hd, List.take_succ_cons]⟩
  · exact ⟨none, rfl⟩

theorem exists_take_exponentExtent (text : Text) : ∃ exponent : Option ExponentText,
    exponent.elim [] ExponentText.text = text.take (exponentExtent text) := by
  rw [exponentExtent.eq_def]
  split
  · next digits =>
    split
    · exact ⟨none, rfl⟩
    · next hrun =>
      obtain ⟨d, hd⟩ := exists_take_digitRun hrun
      refine ⟨some ⟨'e', .inl rfl, true, d⟩, ?_⟩
      rw [Option.elim_some, ExponentText.text, hd, List.take_succ_cons, List.take_succ_cons]
      rfl
  · next digits _ =>
    split
    · exact ⟨none, rfl⟩
    · next hrun =>
      obtain ⟨d, hd⟩ := exists_take_digitRun hrun
      refine ⟨some ⟨'e', .inl rfl, false, d⟩, ?_⟩
      rw [Option.elim_some, ExponentText.text, hd, List.take_succ_cons]
      rfl
  · exact ⟨none, rfl⟩

/-- What is taken for a numeral is one. -/
theorem exists_take_extent (hextent : extent text ≠ 0) :
    ∃ s : Spelling, s.text = text.take (extent text) := by
  rw [extent] at hextent ⊢
  simp only at hextent ⊢
  split at hextent
  · exact absurd rfl hextent
  next hrun =>
  obtain ⟨whole, hwhole⟩ := exists_take_digitRun hrun
  obtain ⟨fraction, hfraction⟩ := exists_take_fractionExtent (text.drop (digitRun text))
  obtain ⟨exponent, hexponent⟩ := exists_take_exponentExtent
    (text.drop (digitRun text + fractionExtent (text.drop (digitRun text))))
  refine ⟨⟨whole, fraction, exponent⟩, ?_⟩
  rw [if_neg hrun, List.take_add, List.take_add, ← hwhole, ← hfraction, ← hexponent,
    List.append_assoc]
  rfl

/-- What is taken for a numeral with an optional hyphen is one. -/
theorem exists_take_signedExtent (hextent : signedExtent text ≠ 0) :
    ∃ s : SignedSpelling, s.text = text.take (signedExtent text) := by
  rw [signedExtent.eq_def] at hextent ⊢
  split at hextent
  · next rest =>
    split at hextent
    · exact absurd rfl hextent
    next hrest =>
    obtain ⟨s, hs⟩ := exists_take_extent hrest
    refine ⟨⟨true, s⟩, ?_⟩
    simp only [if_neg hrest, List.take_succ_cons, ← hs]
    rfl
  · obtain ⟨s, hs⟩ := exists_take_extent hextent
    exact ⟨⟨false, s⟩, hs⟩
/-! ## Written numbers -/

/-- The characters of numerals with the small mark. -/
def IsWritten (c : Char) : Prop := c.isDigit = true ∨ c = '.' ∨ c = 'e' ∨ c = '-'

theorem hasSmallMark_of_forall_isWritten (htext : ∀ c ∈ s.text, IsWritten c) :
    s.HasSmallMark := by
  intro e hexponent
  have hmem : e.mark ∈ s.text := by
    rw [Spelling.text, Spelling.exponentText, Option.mem_def.1 hexponent]
    simp [ExponentText.text]
  rcases e.isMark with hmark | hmark
  · exact hmark
  · rw [hmark] at hmem
    exact absurd (htext 'E' hmem) (by unfold IsWritten; decide)

theorem forall_isWritten_digits {digits : Text} (hdigits : ∀ c ∈ digits, c.isDigit = true) :
    ∀ c ∈ digits, IsWritten c := fun c hc => .inl (hdigits c hc)

theorem forall_isWritten_zeros (n : Nat) : ∀ c ∈ List.replicate n '0', IsWritten c :=
  forall_isWritten_digits (forall_isDigit_zeros n)

theorem isWritten_point : IsWritten '.' := .inr (.inl rfl)

theorem Digits.forall_isWritten_positional {d : Digits} (hd : d.Proper) :
    ∀ c ∈ d.positional, IsWritten c := by
  have hdigits := forall_isWritten_digits hd.2
  have hlead : ∀ c ∈ ['0', '.'], IsWritten c :=
    List.forall_mem_cons.2 ⟨.inl (by decide), List.forall_mem_singleton.2 isWritten_point⟩
  rw [positional]
  split
  · exact List.forall_mem_append.2
      ⟨List.forall_mem_append.2 ⟨hlead, forall_isWritten_zeros _⟩, hdigits⟩
  split
  · exact List.forall_mem_append.2 ⟨hdigits, forall_isWritten_zeros _⟩
  · have hwhole : ∀ c ∈ d.digits.take d.point.toNat, IsWritten c :=
      fun c hc => hdigits c (List.mem_of_mem_take hc)
    exact List.forall_mem_append.2
      ⟨List.forall_mem_append.2 ⟨hwhole, List.forall_mem_singleton.2 isWritten_point⟩,
        fun c hc => hdigits c (List.mem_of_mem_drop hc)⟩

theorem forall_isWritten_writeInt (n : Int) : ∀ c ∈ writeInt n, IsWritten c := by
  have hdigits : ∀ c ∈ digitsOf n.natAbs, IsWritten c :=
    forall_isWritten_digits fun _ => isDigit_of_mem_digitsOf
  rw [writeInt]
  split
  · exact List.forall_mem_cons.2 ⟨.inr (.inr (.inr rfl)), hdigits⟩
  · exact hdigits

theorem Digits.forall_isWritten_scientific {d : Digits} (hd : d.Proper) :
    ∀ c ∈ d.scientific, IsWritten c := by
  have hdigits := forall_isWritten_digits hd.2
  have hfraction : ∀ c ∈ if d.digits.length ≤ 1 then [] else '.' :: d.digits.drop 1,
      IsWritten c := by
    split
    · exact nofun
    · exact List.forall_mem_cons.2
        ⟨isWritten_point, fun c hc => hdigits c (List.mem_of_mem_drop hc)⟩
  have hmantissa := List.forall_mem_append.2
    ⟨fun c (hc : c ∈ d.digits.take 1) => hdigits c (List.mem_of_mem_take hc), hfraction⟩
  have hmark : ∀ c ∈ ['e'], IsWritten c := List.forall_mem_singleton.2 (.inr (.inr (.inl rfl)))
  exact List.forall_mem_append.2
    ⟨List.forall_mem_append.2 ⟨hmantissa, hmark⟩, forall_isWritten_writeInt _⟩

theorem forall_isWritten_signed {text : Text} (x : Float) (htext : ∀ c ∈ text, IsWritten c) :
    ∀ c ∈ signed x text, IsWritten c := by
  rw [signed]
  split
  · exact List.forall_mem_cons.2 ⟨.inr (.inr (.inr rfl)), htext⟩
  · exact htext

/-- The characters that are written of a finite number. -/
theorem forall_isWritten_write {x : Float} (hx : x.isFinite = true) :
    ∀ c ∈ write x, IsWritten c := by
  rw [write_of_isFinite hx]
  split
  · exact forall_isWritten_zeros 1
  · next hsmall =>
    have hzero : ¬(x == 0) = true := fun h => hsmall (snapBound_of_beq_zero h)
    have hproper := Decimal.toDigits_proper (shortest_coefficient_ne_zero hx hzero)
    split
    · rw [writePositional_of_isFinite hx, if_neg hzero]
      exact forall_isWritten_signed x (Digits.forall_isWritten_positional hproper)
    · rw [writeScientific_of_isFinite hx, if_neg hzero]
      exact forall_isWritten_signed x (Digits.forall_isWritten_scientific hproper)

/-- What is written of a finite number is a sign and a numeral with the small mark, which
denotes the number shown without its sign. -/
theorem exists_write_eq {x : Float} (hx : x.isFinite = true) :
    ∃ s : Spelling, s.HasSmallMark ∧ write x = signed (shown x) s.text ∧
      s.value = (shown x).abs := by
  obtain ⟨⟨negative, s⟩, htext, hvalue⟩ := spellsDouble_write hx
  have hsign : isNegative (shown x) = negative := by
    rw [← hvalue, SignedSpelling.isNegative_value]
  have hwritten : write x = signed (shown x) s.text := by
    rw [← htext, SignedSpelling.text, signed, hsign]
  refine ⟨s, hasSmallMark_of_forall_isWritten fun c hc => ?_, hwritten, ?_⟩
  · refine forall_isWritten_write hx c ?_
    rw [hwritten, signed]
    split
    · exact List.mem_cons_of_mem _ hc
    · exact hc
  · rw [← hvalue, SignedSpelling.abs_value]

end MatrixCalculator.Numeral
