import MatrixCalculator.Numeral.Decimal
import MatrixCalculator.Proofs.Text

/-!
# Spelled numerals

The numerals of the calculator as data: digits, an optional fraction and an optional
exponent.  Every printed finite number is one of them, and so is every numeral of an
expression.  What a numeral denotes is read off its parts.
-/

namespace MatrixCalculator.Numeral

/-- Decimal digits, at least one. -/
structure DigitText where
  text : Text
  ne_nil : text ≠ []
  isDigit : ∀ c ∈ text, c.isDigit = true

/-- A mark, an optional hyphen and digits. -/
structure ExponentText where
  mark : Char
  isMark : mark = 'e' ∨ mark = 'E'
  negative : Bool
  digits : DigitText

namespace ExponentText

def sign (e : ExponentText) : Text := if e.negative then ['-'] else []

def text (e : ExponentText) : Text := e.mark :: (e.sign ++ e.digits.text)

def value (e : ExponentText) : Int :=
  if e.negative then -(ofDigits e.digits.text : Int) else ofDigits e.digits.text

end ExponentText

/-- A numeral without a sign. -/
structure Spelling where
  whole : DigitText
  fraction : Option DigitText
  exponent : Option ExponentText

namespace Spelling

def fractionDigits (s : Spelling) : Text := s.fraction.elim [] DigitText.text

def fractionText (s : Spelling) : Text := s.fraction.elim [] fun digits => '.' :: digits.text

def exponentText (s : Spelling) : Text := s.exponent.elim [] ExponentText.text

def text (s : Spelling) : Text := s.whole.text ++ (s.fractionText ++ s.exponentText)

def decimal (s : Spelling) : Decimal :=
  ⟨ofDigits (s.whole.text ++ s.fractionDigits),
    s.exponent.elim 0 ExponentText.value - s.fractionDigits.length⟩

def value (s : Spelling) : Float := s.decimal.toDouble

end Spelling

structure SignedSpelling where
  negative : Bool
  magnitude : Spelling

namespace SignedSpelling

def text (s : SignedSpelling) : Text :=
  if s.negative then '-' :: s.magnitude.text else s.magnitude.text

def value (s : SignedSpelling) : Float :=
  if s.negative then -s.magnitude.value else s.magnitude.value

end SignedSpelling

/-! ## Where digits end -/

/-- What holds for the ten digits holds for every digit. -/
theorem of_isDigit (p : Char → Prop) {c : Char} (hdigits : ∀ d ∈ "0123456789".toList, p d)
    (hc : c.isDigit = true) : p c := by
  refine hdigits c ?_
  have hrange : 48 ≤ c.toNat ∧ c.toNat ≤ 57 := by
    simpa [Char.isDigit, UInt32.le_iff_toNat_le] using hc
  have heq : c = Char.ofNat c.toNat := (Char.ofNat_toNat c).symm
  obtain ⟨hlow, hhigh⟩ := hrange
  rw [heq]
  interval_cases c.toNat <;> decide

/-- Whether a text does not go on with a digit. -/
def EndsDigits (rest : Text) : Prop := ∀ c, rest.head? = some c → c.isDigit = false

variable {rest : Text}

theorem endsDigits_nil : EndsDigits [] := nofun

theorem endsDigits_cons {c : Char} (hc : c.isDigit = false) : EndsDigits (c :: rest) := by
  rintro _ ⟨⟩
  exact hc

/-- The first digit and the others. -/
theorem DigitText.exists_cons (d : DigitText) :
    ∃ c digits, d.text = c :: digits ∧ c.isDigit = true := by
  obtain ⟨c, digits, htext⟩ := List.exists_cons_of_ne_nil d.ne_nil
  exact ⟨c, digits, htext, d.isDigit c (by simp [htext])⟩

theorem ne_of_isDigit {c d : Char} (hc : c.isDigit = true) (hd : d.isDigit = false) : c ≠ d := by
  rintro rfl
  rw [hc] at hd
  cases hd

theorem ExponentText.mark_isDigit (e : ExponentText) : e.mark.isDigit = false := by
  rcases e.isMark with h | h <;> rw [h] <;> decide

theorem Spelling.endsDigits_exponentText (s : Spelling) (hrest : EndsDigits rest) :
    EndsDigits (s.exponentText ++ rest) := by
  rw [exponentText]
  cases s.exponent with
  | none => exact hrest
  | some e => exact endsDigits_cons e.mark_isDigit

theorem Spelling.endsDigits_fractionText (s : Spelling) (hrest : EndsDigits rest) :
    EndsDigits (s.fractionText ++ (s.exponentText ++ rest)) := by
  rw [fractionText]
  cases s.fraction with
  | none => exact s.endsDigits_exponentText hrest
  | some d => exact endsDigits_cons (by decide)

/-- A numeral begins with a digit. -/
theorem Spelling.exists_cons (s : Spelling) : ∃ c rest, s.text = c :: rest ∧ c.isDigit = true := by
  obtain ⟨c, digits, htext, hc⟩ := s.whole.exists_cons
  exact ⟨c, digits ++ (s.fractionText ++ s.exponentText), by rw [text, htext]; rfl, hc⟩

/-! ## Longer numerals -/

def DigitText.append (d e : DigitText) : DigitText where
  text := d.text ++ e.text
  ne_nil := List.append_ne_nil_of_left_ne_nil d.ne_nil e.text
  isDigit := List.forall_mem_append.2 ⟨d.isDigit, e.isDigit⟩

def DigitText.single (c : Char) (hc : c.isDigit = true) : DigitText :=
  ⟨[c], List.cons_ne_nil c [], by simpa using hc⟩

def Spelling.ofDigits (d : DigitText) : Spelling := ⟨d, none, none⟩

theorem Spelling.text_ofDigits (d : DigitText) : (Spelling.ofDigits d).text = d.text := by
  simp [ofDigits, Spelling.text, fractionText, exponentText]

/-- Digits in front of a numeral are digits of its whole part. -/
theorem exists_digits_append (d : DigitText) (s : Spelling) :
    ∃ joined : Spelling, joined.text = d.text ++ s.text :=
  ⟨{ s with whole := d.append s.whole }, List.append_assoc ..⟩

/-- Digits behind a numeral are digits of its last part. -/
theorem exists_append_digits (s : Spelling) (d : DigitText) :
    ∃ joined : Spelling, joined.text = s.text ++ d.text := by
  obtain ⟨whole, fraction, exponent⟩ := s
  cases exponent with
  | some e =>
    refine ⟨⟨whole, fraction, some { e with digits := e.digits.append d }⟩, ?_⟩
    simp [Spelling.text, Spelling.fractionText, Spelling.exponentText, ExponentText.text,
      ExponentText.sign, DigitText.append]
  | none =>
    cases fraction with
    | some f =>
      refine ⟨⟨whole, some (f.append d), none⟩, ?_⟩
      simp [Spelling.text, Spelling.fractionText, Spelling.exponentText, DigitText.append]
    | none =>
      refine ⟨⟨whole.append d, none, none⟩, ?_⟩
      simp [Spelling.text, Spelling.fractionText, Spelling.exponentText, DigitText.append]

theorem SignedSpelling.exists_append_digits (s : SignedSpelling) (d : DigitText) :
    ∃ joined : SignedSpelling, joined.text = s.text ++ d.text := by
  obtain ⟨magnitude, hmagnitude⟩ := Numeral.exists_append_digits s.magnitude d
  refine ⟨⟨s.negative, magnitude⟩, ?_⟩
  rw [SignedSpelling.text, SignedSpelling.text, hmagnitude]
  split <;> rfl

end MatrixCalculator.Numeral
