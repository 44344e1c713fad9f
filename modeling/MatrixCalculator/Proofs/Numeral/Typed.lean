import MatrixCalculator.Proofs.Numeral.Spelling
import Mathlib.Data.List.TakeWhile

/-!
# Typed numerals

A numeral that is typed may lack the digits on one side of its point, and its exponent
may have either sign.  These are exactly the texts that are read as decimals; the
numerals that the calculator writes are some of them.
-/

namespace MatrixCalculator.Numeral

open Text

/-- A mark, an optional sign and digits. -/
structure TypedExponent where
  mark : Char
  isMark : mark = 'e' ∨ mark = 'E'
  sign : Text
  isSign : sign = [] ∨ sign = ['-'] ∨ sign = ['+']
  digits : DigitText

namespace TypedExponent

def text (e : TypedExponent) : Text := e.mark :: (e.sign ++ e.digits.text)

def value (e : TypedExponent) : Int :=
  if e.sign = ['-'] then -(ofDigits e.digits.text : Int) else ofDigits e.digits.text

end TypedExponent

/-- A numeral without a sign, with a digit at least on one side of the point. -/
structure TypedNumeral where
  whole : Text
  fraction : Option Text
  exponent : Option TypedExponent
  isDigit : ∀ c ∈ whole ++ fraction.getD [], c.isDigit = true
  hasDigit : whole ++ fraction.getD [] ≠ []

namespace TypedNumeral

def fractionDigits (s : TypedNumeral) : Text := s.fraction.getD []

def fractionText (s : TypedNumeral) : Text := s.fraction.elim [] ('.' :: ·)

def exponentText (s : TypedNumeral) : Text := s.exponent.elim [] TypedExponent.text

def text (s : TypedNumeral) : Text := s.whole ++ (s.fractionText ++ s.exponentText)

def decimal (s : TypedNumeral) : Decimal :=
  ⟨ofDigits (s.whole ++ s.fractionDigits),
    s.exponent.elim 0 TypedExponent.value - s.fractionDigits.length⟩

def value (s : TypedNumeral) : Float := s.decimal.toDouble

end TypedNumeral

variable {text rest digits : Text}

theorem forall_isDigit_takeWhile (text : Text) :
    ∀ c ∈ text.takeWhile Char.isDigit, c.isDigit = true :=
  fun _ => List.mem_takeWhile_imp

/-! ## Exponents -/

theorem TypedExponent.mark_isDigit (e : TypedExponent) : e.mark.isDigit = false := by
  rcases e.isMark with h | h <;> rw [h] <;> decide

theorem TypedExponent.mark_ne_point (e : TypedExponent) : e.mark ≠ '.' := by
  rcases e.isMark with h | h <;> rw [h] <;> decide

theorem whole?_eq_some_iff {n : Nat} :
    readExponent?.whole? text = some n ↔ ∃ d : DigitText, d.text = text ∧ ofDigits d.text = n := by
  rw [readExponent?.whole?]
  constructor
  · intro hread
    split at hread
    · next hdigits =>
      exact ⟨⟨text, hdigits.1, List.all_eq_true.1 hdigits.2⟩, rfl, Option.some.inj hread⟩
    · cases hread
  · rintro ⟨d, rfl, rfl⟩
    rw [if_pos ⟨d.ne_nil, List.all_eq_true.2 d.isDigit⟩]

/-- What stands behind a mark is an optional sign and digits. -/
theorem readExponent?_mark {mark : Char} (hmark : mark = 'e' ∨ mark = 'E') {n : Int} :
    readExponent? (mark :: text) = some n ↔
      ∃ e : TypedExponent, e.text = mark :: text ∧ e.value = n := by
  rw [readExponent?.eq_def]
  dsimp only
  rw [if_pos hmark]
  constructor
  · intro hread
    split at hread
    all_goals
      simp only [Option.map_eq_some_iff, Option.bind_eq_bind, Option.bind_eq_some_iff,
        Option.pure_def, Option.some.injEq, whole?_eq_some_iff] at hread
    · obtain ⟨_, ⟨_, ⟨d, rfl, rfl⟩, rfl⟩, rfl⟩ := hread
      exact ⟨⟨mark, hmark, ['-'], .inr (.inl rfl), d⟩, rfl, rfl⟩
    · obtain ⟨_, ⟨_, ⟨d, rfl, rfl⟩, rfl⟩, rfl⟩ := hread
      exact ⟨⟨mark, hmark, ['+'], .inr (.inr rfl), d⟩, rfl, rfl⟩
    · obtain ⟨_, ⟨_, ⟨d, rfl, rfl⟩, rfl⟩, rfl⟩ := hread
      exact ⟨⟨mark, hmark, [], .inl rfl, d⟩, rfl, rfl⟩
  · rintro ⟨⟨other, hother, sign, hsign, d⟩, htext, rfl⟩
    obtain ⟨rfl, rfl⟩ := List.cons.inj htext
    have hread : readExponent?.whole? d.text = some (ofDigits d.text) :=
      whole?_eq_some_iff.2 ⟨d, rfl, rfl⟩
    obtain ⟨c, others, hdigits, hc⟩ := d.exists_cons
    have hminus := ne_of_isDigit hc (show '-'.isDigit = false by decide)
    have hplus := ne_of_isDigit hc (show '+'.isDigit = false by decide)
    rcases hsign with rfl | rfl | rfl
    · dsimp only [List.nil_append]
      split
      · next heq => exact absurd (List.cons.inj (hdigits.symm.trans heq)).1 hminus
      · next heq => exact absurd (List.cons.inj (hdigits.symm.trans heq)).1 hplus
      · rw [hread]
        rfl
    · simp only [List.singleton_append, hread]
      rfl
    · simp only [List.singleton_append, hread]
      rfl

/-- An exponent is read as what it denotes, and a missing one as zero. -/
theorem readExponent?_eq_some_iff {n : Int} :
    readExponent? text = some n ↔ ∃ exponent : Option TypedExponent,
      exponent.elim [] TypedExponent.text = text ∧ exponent.elim 0 TypedExponent.value = n := by
  cases text with
  | nil =>
    constructor
    · rintro ⟨⟩
      exact ⟨none, rfl, rfl⟩
    · rintro ⟨exponent, htext, rfl⟩
      cases exponent with
      | none => rfl
      | some e => cases htext
  | cons mark text =>
    by_cases hmark : mark = 'e' ∨ mark = 'E'
    · rw [readExponent?_mark hmark]
      constructor
      · rintro ⟨e, htext, hvalue⟩
        exact ⟨some e, htext, hvalue⟩
      · rintro ⟨exponent, htext, hvalue⟩
        cases exponent with
        | none => cases htext
        | some e => exact ⟨e, htext, hvalue⟩
    · rw [readExponent?.eq_def]
      dsimp only
      rw [if_neg hmark]
      refine ⟨nofun, ?_⟩
      rintro ⟨exponent, htext, -⟩
      cases exponent with
      | none => cases htext
      | some e => exact absurd ((List.cons.inj htext).1 ▸ e.isMark) hmark

/-! ## Numerals -/

namespace TypedNumeral

variable (s : TypedNumeral)

theorem isDigit_whole : ∀ c ∈ s.whole, c.isDigit = true :=
  (List.forall_mem_append.1 s.isDigit).1

theorem isDigit_fractionDigits : ∀ c ∈ s.fractionDigits, c.isDigit = true :=
  (List.forall_mem_append.1 s.isDigit).2

/-- In front of its exponent a numeral has digits and at most the point. -/
theorem isDigit_mantissa : ∀ c ∈ s.whole ++ s.fractionText, c.isDigit = true ∨ c = '.' := by
  refine List.forall_mem_append.2 ⟨fun c hc => .inl (s.isDigit_whole c hc), ?_⟩
  have hfraction := s.isDigit_fractionDigits
  rw [fractionDigits] at hfraction
  rw [fractionText]
  cases hsome : s.fraction with
  | none => exact nofun
  | some digits =>
    rw [hsome, Option.getD_some] at hfraction
    exact List.forall_mem_cons.2 ⟨.inr rfl, fun c hc => .inl (hfraction c hc)⟩

theorem mantissa_ne_nil : s.whole ++ s.fractionText ≠ [] := by
  have hne := s.hasDigit
  rw [fractionText]
  cases hfraction : s.fraction with
  | none => rwa [hfraction] at hne
  | some digits => exact List.append_ne_nil_of_right_ne_nil _ (List.cons_ne_nil _ _)

theorem endsDigits_exponentText (hrest : EndsDigits rest) :
    EndsDigits (s.exponentText ++ rest) := by
  rw [exponentText]
  cases s.exponent with
  | none => exact hrest
  | some e => exact endsDigits_cons e.mark_isDigit

theorem endsDigits_fractionText (hrest : EndsDigits rest) :
    EndsDigits (s.fractionText ++ (s.exponentText ++ rest)) := by
  rw [fractionText]
  cases s.fraction with
  | none => exact s.endsDigits_exponentText hrest
  | some digits => exact endsDigits_cons (by decide)

/-- A numeral begins with a digit or with its point. -/
theorem exists_cons : ∃ c rest, s.text = c :: rest ∧ (c.isDigit = true ∨ c = '.') := by
  obtain ⟨_ | ⟨c, whole⟩, fraction, exponent, hdigits, hne⟩ := s
  · cases fraction with
    | none => exact absurd rfl hne
    | some digits => exact ⟨'.', _, rfl, .inr rfl⟩
  · exact ⟨c, _, rfl, .inl (hdigits c (by simp))⟩

theorem text_ne_nil : s.text ≠ [] := by
  obtain ⟨c, rest, htext, -⟩ := s.exists_cons
  rw [htext]
  exact List.cons_ne_nil _ _

theorem exponentText_ne_point {tail : Text} : s.exponentText ≠ '.' :: tail := by
  rw [exponentText]
  cases s.exponent with
  | none => exact nofun
  | some e => exact fun heq => e.mark_ne_point (List.cons.inj heq).1

end TypedNumeral

/-- The texts that are read as decimals are the typed numerals. -/
theorem readDecimal?_eq_some_iff {d : Decimal} :
    readDecimal? text = some d ↔ ∃ s : TypedNumeral, s.text = text ∧ s.decimal = d := by
  constructor
  · intro hread
    have hwhole := forall_isDigit_takeWhile text
    have hsplit := List.takeWhile_append_dropWhile (p := Char.isDigit) (l := text)
    rw [readDecimal?] at hread
    split at hread
    next fraction rest hbehind =>
    split at hread
    · cases hread
    · next hdigits =>
      obtain ⟨n, hn, rfl⟩ := Option.map_eq_some_iff.1 hread
      obtain ⟨exponent, rfl, rfl⟩ := readExponent?_eq_some_iff.1 hn
      split at hbehind
      · next tail hpoint =>
        obtain ⟨rfl, htail⟩ := Prod.mk.inj hbehind
        refine ⟨⟨text.takeWhile Char.isDigit, some (tail.takeWhile Char.isDigit), exponent, ?_, ?_⟩,
          ?_, rfl⟩
        · exact List.forall_mem_append.2 ⟨hwhole, forall_isDigit_takeWhile tail⟩
        · simpa only [Option.getD_some, ne_eq, List.append_eq_nil_iff] using hdigits
        · conv_rhs => rw [← hsplit, hpoint,
            ← List.takeWhile_append_dropWhile (p := Char.isDigit) (l := tail), htail]
          rfl
      · obtain ⟨rfl, htail⟩ := Prod.mk.inj hbehind
        refine ⟨⟨text.takeWhile Char.isDigit, none, exponent, ?_, ?_⟩, ?_, rfl⟩
        · simpa using hwhole
        · simpa using hdigits
        · conv_rhs => rw [← hsplit, htail]
          rfl
  · rintro ⟨s, rfl, rfl⟩
    have hends : EndsDigits (s.fractionText ++ s.exponentText) := by
      simpa using s.endsDigits_fractionText endsDigits_nil
    have hmark : EndsDigits s.exponentText := by
      simpa using s.endsDigits_exponentText endsDigits_nil
    have hexponent : readExponent? s.exponentText =
        some (s.exponent.elim 0 TypedExponent.value) :=
      readExponent?_eq_some_iff.2 ⟨s.exponent, rfl, rfl⟩
    have hdigits : ¬(s.whole = [] ∧ s.fractionDigits = []) :=
      fun h => s.hasDigit (List.append_eq_nil_iff.2 h)
    have hfractionDigits := s.isDigit_fractionDigits
    simp only [readDecimal?, TypedNumeral.text, takeWhile_run s.isDigit_whole hends,
      dropWhile_run s.isDigit_whole hends, TypedNumeral.decimal]
    cases hfraction : s.fraction with
    | some digits =>
      simp only [TypedNumeral.fractionDigits, TypedNumeral.fractionText, hfraction,
        Option.elim_some, Option.getD_some, List.cons_append] at hdigits hfractionDigits ⊢
      simp only [takeWhile_run hfractionDigits hmark, dropWhile_run hfractionDigits hmark,
        if_neg hdigits, hexponent, Option.map_some]
    | none =>
      simp only [TypedNumeral.fractionDigits, TypedNumeral.fractionText, hfraction,
        Option.elim_none, Option.getD_none, List.nil_append] at hdigits ⊢
      split
      · next tail hpoint => exact absurd hpoint s.exponentText_ne_point
      · simp only [if_neg hdigits, hexponent, Option.map_some]

namespace TypedNumeral

variable (s : TypedNumeral)

theorem readUnsigned?_text : readUnsigned? s.text = some s.value := by
  obtain ⟨c, rest, htext, hc⟩ := s.exists_cons
  have hlower : c.toLower = c := by
    rcases hc with hc | rfl
    · exact of_isDigit (fun c => c.toLower = c) (List.all_iff_forall_prop.1 (by decide)) hc
    · decide
  have hword : ∀ first word, first.isDigit = false → first ≠ '.' →
      s.text.map Char.toLower ≠ first :: word := by
    intro first word hdigit hpoint heq
    rw [htext, List.map_cons, hlower] at heq
    obtain ⟨rfl, -⟩ := List.cons.inj heq
    rcases hc with hc | hc
    · rw [hdigit] at hc
      cases hc
    · exact hpoint hc
  have hread : readDecimal? s.text = some s.decimal := readDecimal?_eq_some_iff.2 ⟨s, rfl, rfl⟩
  simp only [readUnsigned?]
  rw [if_neg, if_neg, hread, Option.map_some, value]
  · exact hword 'n' _ (by decide) (by decide)
  · rintro (heq | heq)
    · exact hword 'i' _ (by decide) (by decide) heq
    · exact hword 'i' _ (by decide) (by decide) heq

theorem read?_text : read? s.text = some s.value := by
  obtain ⟨c, rest, htext, hc⟩ := s.exists_cons
  have hsigns : c ≠ '-' ∧ c ≠ '+' := by
    rcases hc with hc | rfl
    · exact ⟨ne_of_isDigit hc (by decide), ne_of_isDigit hc (by decide)⟩
    · decide
  rw [← s.readUnsigned?_text, htext, read?]
  · rintro _ ⟨⟩
    exact hsigns.1 rfl
  · rintro _ ⟨⟩
    exact hsigns.2 rfl

end TypedNumeral

/-! ## Spelled numerals -/

def ExponentText.typed (e : ExponentText) : TypedExponent where
  mark := e.mark
  isMark := e.isMark
  sign := e.sign
  isSign := by
    rw [sign]
    split
    · exact .inr (.inl rfl)
    · exact .inl rfl
  digits := e.digits

theorem ExponentText.value_typed (e : ExponentText) : e.typed.value = e.value := by
  obtain ⟨mark, hmark, negative, digits⟩ := e
  cases negative <;> rfl

namespace Spelling

def typed (s : Spelling) : TypedNumeral where
  whole := s.whole.text
  fraction := s.fraction.map DigitText.text
  exponent := s.exponent.map ExponentText.typed
  isDigit := by
    refine List.forall_mem_append.2 ⟨s.whole.isDigit, ?_⟩
    cases s.fraction with
    | none => exact nofun
    | some digits => exact digits.isDigit
  hasDigit := List.append_ne_nil_of_left_ne_nil s.whole.ne_nil _

variable (s : Spelling)

theorem text_typed : s.typed.text = s.text := by
  obtain ⟨whole, fraction, exponent⟩ := s
  cases fraction <;> cases exponent <;> rfl

theorem decimal_typed : s.typed.decimal = s.decimal := by
  obtain ⟨whole, fraction, exponent⟩ := s
  cases exponent with
  | none => cases fraction <;> rfl
  | some e =>
    have hvalue := e.value_typed
    cases fraction <;>
      simp only [TypedNumeral.decimal, TypedNumeral.fractionDigits, decimal, fractionDigits, typed,
        Option.map_some, Option.map_none, Option.elim_some, Option.elim_none, Option.getD_some,
        Option.getD_none, hvalue]

theorem value_typed : s.typed.value = s.value := congrArg Decimal.toDouble s.decimal_typed

theorem readDecimal?_text : readDecimal? s.text = some s.decimal :=
  readDecimal?_eq_some_iff.2 ⟨s.typed, s.text_typed, s.decimal_typed⟩

theorem readUnsigned?_text : readUnsigned? s.text = some s.value := by
  rw [← s.text_typed, ← s.value_typed, s.typed.readUnsigned?_text]

end Spelling

theorem SignedSpelling.read?_text (s : SignedSpelling) : read? s.text = some s.value := by
  obtain ⟨negative, magnitude⟩ := s
  cases negative with
  | true => simp [text, value, read?, magnitude.readUnsigned?_text]
  | false =>
    simp only [text, value, Bool.false_eq_true, if_false]
    rw [← magnitude.text_typed, ← magnitude.value_typed, magnitude.typed.read?_text]

end MatrixCalculator.Numeral
