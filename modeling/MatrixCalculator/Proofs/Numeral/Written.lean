import MatrixCalculator.Numeral.Layout
import MatrixCalculator.Proofs.Numeral.Shortest
import MatrixCalculator.Proofs.Numeral.Typed

/-!
# Written numbers

What is written of a number is read back as the number, except that noise below the
bound of the output becomes zero.  In between stand the digits of the shortest
decimal, which denote the same rational number in both layouts.
-/

namespace MatrixCalculator.Numeral

/-! ## Digits and their values -/

theorem ofDigits_append (left right : Text) :
    ofDigits (left ++ right) = ofDigits left * 10 ^ right.length + ofDigits right := by
  rw [ofDigits, Nat.ofDigitChars_append, Nat.ofDigitChars_eq_ofDigitChars_zero, Nat.mul_comm]
  rfl

theorem ofDigits_zeros (n : Nat) : ofDigits (List.replicate n '0') = 0 := by
  rw [ofDigits, Nat.ofDigitChars_replicate_zero, Nat.mul_zero]

theorem ofDigits_digitsOf (n : Nat) : ofDigits (digitsOf n) = n := Nat.ofDigitChars_ten_toDigits

theorem isDigit_of_mem_digitsOf {n : Nat} {c : Char} (hc : c ∈ digitsOf n) : c.isDigit = true :=
  Nat.isDigit_of_mem_toDigits (by decide) (by decide) hc

theorem isDigit_of_mem_zeros {n : Nat} {c : Char} (hc : c ∈ List.replicate n '0') :
    c.isDigit = true := by
  rw [List.eq_of_mem_replicate hc]
  decide

def Digits.toRat (d : Digits) : Rat := ofDigits d.digits * (10 : Rat) ^ (d.point - d.digits.length)

/-- Digits that are digits, at least one. -/
def Digits.Proper (d : Digits) : Prop := d.digits ≠ [] ∧ ∀ c ∈ d.digits, c.isDigit = true

/-- The zeros at the right end of a text, and what is in front of them. -/
theorem exists_trailing_zeros (text : Text) :
    ∃ n, text = (text.reverse.dropWhile (· == '0')).reverse ++ List.replicate n '0' := by
  refine ⟨(text.reverse.takeWhile (· == '0')).length, ?_⟩
  have hzeros : text.reverse.takeWhile (· == '0') =
      List.replicate (text.reverse.takeWhile (· == '0')).length '0' := by
    refine List.eq_replicate_of_mem fun c hc => ?_
    simpa using List.all_eq_true.1 List.all_takeWhile c hc
  have hsplit := List.takeWhile_append_dropWhile (p := (· == '0')) (l := text.reverse)
  rw [hzeros] at hsplit
  have hreverse := congrArg List.reverse hsplit
  rw [List.reverse_append, List.reverse_replicate, List.reverse_reverse] at hreverse
  exact hreverse.symm

/-- The digits of a decimal with the zeros that they lack at the right end. -/
theorem Decimal.exists_toDigits (d : Decimal) :
    ∃ n, digitsOf d.coefficient = d.toDigits.digits ++ List.replicate n '0' ∧
      d.coefficient = ofDigits d.toDigits.digits * 10 ^ n ∧
      d.toDigits.point = d.toDigits.digits.length + n + d.exponent := by
  obtain ⟨n, hn⟩ := exists_trailing_zeros (digitsOf d.coefficient)
  refine ⟨n, hn, ?_, ?_⟩
  · have hvalue := congrArg ofDigits hn
    rw [ofDigits_digitsOf, ofDigits_append, ofDigits_zeros, List.length_replicate] at hvalue
    exact hvalue
  · have hlength := congrArg List.length hn
    rw [List.length_append, List.length_replicate] at hlength
    simp only [toDigits]
    rw [hlength]
    push_cast
    ring

theorem Decimal.toDigits_toRat (d : Decimal) : d.toDigits.toRat = d.toRat := by
  obtain ⟨n, -, hcoefficient, hpoint⟩ := d.exists_toDigits
  have hexponent : d.toDigits.point - d.toDigits.digits.length = n + d.exponent := by
    rw [hpoint]
    ring
  rw [Digits.toRat, hexponent, toRat, hcoefficient, zpow_add₀ (by norm_num), zpow_natCast]
  push_cast
  ring

theorem Decimal.toDigits_proper {d : Decimal} (hd : d.coefficient ≠ 0) : d.toDigits.Proper := by
  obtain ⟨n, hdigits, hcoefficient, -⟩ := d.exists_toDigits
  refine ⟨fun hnil => hd ?_, fun c hc => ?_⟩
  · rw [hcoefficient, hnil]
    exact Nat.zero_mul _
  · have hmem : c ∈ digitsOf d.coefficient := by
      rw [hdigits]
      exact List.mem_append_left _ hc
    exact isDigit_of_mem_digitsOf hmem

/-! ## Both layouts -/

/-- Whether a text is a numeral that denotes a rational. -/
def Spells (text : Text) (r : Rat) : Prop := ∃ s : Spelling, s.text = text ∧ s.decimal.toRat = r

/-- A point and digits, or nothing where there are no digits. -/
def withPoint (fraction : Text) : Text := if fraction = [] then [] else '.' :: fraction

/-- A numeral from its parts, where there may be no fraction and no exponent. -/
theorem spells_of_parts (whole fraction : Text) (exponent : Option ExponentText) {text : Text}
    {r : Rat} (hne : whole ≠ []) (hwhole : ∀ c ∈ whole, c.isDigit = true)
    (hfraction : ∀ c ∈ fraction, c.isDigit = true)
    (htext : whole ++ (withPoint fraction ++ exponent.elim [] ExponentText.text) = text)
    (hvalue : ofDigits (whole ++ fraction) *
      (10 : Rat) ^ (exponent.elim 0 ExponentText.value - fraction.length) = r) :
    Spells text r := by
  by_cases hempty : fraction = []
  · subst hempty
    exact ⟨⟨⟨whole, hne, hwhole⟩, none, exponent⟩, htext, hvalue⟩
  · refine ⟨⟨⟨whole, hne, hwhole⟩, some ⟨fraction, hempty, hfraction⟩, exponent⟩, ?_, hvalue⟩
    rw [withPoint, if_neg hempty] at htext
    exact htext

theorem forall_isDigit_zeros (n : Nat) : ∀ c ∈ List.replicate n '0', c.isDigit = true :=
  fun _ hc => isDigit_of_mem_zeros hc

theorem Digits.spells_positional {d : Digits} (hd : d.Proper) : Spells d.positional d.toRat := by
  obtain ⟨digits, point⟩ := d
  obtain ⟨hne, hdigits⟩ := hd
  simp only at hne hdigits
  simp only [positional, toRat]
  split
  · next hpoint =>
    have hfraction : ∀ c ∈ List.replicate (-point).toNat '0' ++ digits, c.isDigit = true :=
      List.forall_mem_append.2 ⟨forall_isDigit_zeros _, hdigits⟩
    have hempty : List.replicate (-point).toNat '0' ++ digits ≠ [] := by simp [hne]
    have hvalue : ofDigits (['0'] ++ (List.replicate (-point).toNat '0' ++ digits)) =
        ofDigits digits := by
      rw [ofDigits_append, ofDigits_append, ofDigits_zeros, show ofDigits ['0'] = 0 from rfl]
      omega
    refine spells_of_parts ['0'] _ none (List.cons_ne_nil '0' [])
      (forall_isDigit_zeros 1) hfraction ?_ ?_
    · rw [withPoint, if_neg hempty]
      simp
    · rw [hvalue]
      congr 2
      rw [Option.elim_none, List.length_append, List.length_replicate]
      omega
  split
  · next hpoint hlength =>
    have hwhole : ∀ c ∈ digits ++ List.replicate (point - digits.length).toNat '0',
        c.isDigit = true := List.forall_mem_append.2 ⟨hdigits, forall_isDigit_zeros _⟩
    refine spells_of_parts _ [] none (by simp [hne]) hwhole nofun ?_ ?_
    · simp [withPoint]
    · obtain ⟨n, hn⟩ := Int.eq_ofNat_of_zero_le (sub_nonneg.2 hlength)
      rw [List.append_nil, ofDigits_append, ofDigits_zeros, List.length_replicate, hn]
      simp
  · next hpoint hlength =>
    obtain ⟨n, rfl⟩ := Int.eq_ofNat_of_zero_le (not_le.1 hpoint).le
    have hbound : n < digits.length := by omega
    have hpos : 0 < n := by omega
    refine spells_of_parts (digits.take n) (digits.drop n) none ?_
      (fun c hc => hdigits c (List.mem_of_mem_take hc))
      (fun c hc => hdigits c (List.mem_of_mem_drop hc)) ?_ ?_
    · simp [hne, hpos.ne']
    · rw [withPoint, if_neg (by simpa using hbound)]
      simp
    · rw [List.take_append_drop]
      congr 2
      rw [Option.elim_none, List.length_drop]
      omega

/-- The power of ten behind a mantissa. -/
theorem exists_exponentText (n : Int) :
    ∃ e : ExponentText, e.text = 'e' :: writeInt n ∧ e.value = n := by
  have hproper : digitsOf n.natAbs ≠ [] := Nat.toDigits_ne_nil
  refine ⟨⟨'e', .inl rfl, decide (n < 0), ⟨digitsOf n.natAbs, hproper, fun c hc =>
    isDigit_of_mem_digitsOf hc⟩⟩, ?_, ?_⟩
  · rw [ExponentText.text, ExponentText.sign, writeInt]
    by_cases hn : n < 0 <;> simp [hn]
  · rw [ExponentText.value]
    by_cases hn : n < 0
    · simp only [hn, decide_true, if_true, ofDigits_digitsOf]
      omega
    · simp only [hn, decide_false, Bool.false_eq_true, if_false, ofDigits_digitsOf]
      omega

theorem Digits.spells_scientific {d : Digits} (hd : d.Proper) : Spells d.scientific d.toRat := by
  obtain ⟨digits, point⟩ := d
  obtain ⟨hne, hdigits⟩ := hd
  simp only at hne hdigits
  obtain ⟨e, htext, hvalue⟩ := exists_exponentText (point - 1)
  simp only [scientific, toRat]
  refine spells_of_parts (digits.take 1) (digits.drop 1) (some e) (by simp [hne])
    (fun c hc => hdigits c (List.mem_of_mem_take hc))
    (fun c hc => hdigits c (List.mem_of_mem_drop hc)) ?_ ?_
  · rw [Option.elim_some, htext, withPoint]
    by_cases hlength : digits.length ≤ 1
    · rw [if_pos (List.drop_eq_nil_iff.2 hlength), if_pos hlength]
      simp
    · rw [if_neg (fun h => hlength (List.drop_eq_nil_iff.1 h)), if_neg hlength]
      simp
  · rw [List.take_append_drop, Option.elim_some, hvalue, List.length_drop]
    congr 2
    have := List.length_pos_iff.2 hne
    omega

/-! ## Numbers and their texts -/

variable {x : Float}

/-- The number that is read where a number has been written: noise is zero. -/
def shown (x : Float) : Float := if x.abs < snapBound then 0 else x

/-- Whether a text is a numeral with an optional sign that denotes a double. -/
def SpellsDouble (text : Text) (x : Float) : Prop :=
  ∃ s : SignedSpelling, s.text = text ∧ s.value = x

theorem spellsDouble_signed {text : Text} {r : Rat} (hspells : Spells text r)
    (hr : nearest r = x.abs) : SpellsDouble (signed x text) x := by
  obtain ⟨s, rfl, rfl⟩ := hspells
  refine ⟨⟨isNegative x, s⟩, rfl, ?_⟩
  have hvalue : s.value = x.abs := by rw [Spelling.value, Decimal.toDouble_eq_nearest, hr]
  rw [SignedSpelling.value, hvalue]
  cases hsign : isNegative x with
  | true => exact neg_abs_of_isNegative hsign
  | false => exact abs_of_not_isNegative hsign

theorem snapBound_of_beq_zero (hzero : (x == 0) = true) : x.abs < snapBound := by
  have hbits := (beq_zero_iff x).1 hzero
  have habs : x.abs = 0 := by
    apply eq_of_magnitudeBits_eq
    · rw [isNegative_abs]
      decide
    · rw [magnitudeBits_abs, hbits]
      decide
  rw [habs]
  decide

/-- The text of a finite number. -/
theorem write_of_isFinite (hx : x.isFinite = true) : write x =
    if x.abs < snapBound then "0".toList
    else if positionalFrom ≤ x.abs ∧ x.abs < positionalBelow then writePositional x
    else writeScientific x := by
  rw [write, not_isNaN_of_isFinite hx, not_isInf_of_isFinite hx, if_neg Bool.false_ne_true,
    if_neg Bool.false_ne_true]

theorem writePositional_of_isFinite (hx : x.isFinite = true) : writePositional x =
    signed x (if x == 0 then "0".toList else (shortest x).toDigits.positional) := by
  rw [writePositional, not_isNaN_of_isFinite hx, not_isInf_of_isFinite hx,
    if_neg Bool.false_ne_true, if_neg Bool.false_ne_true, apply_ite (signed x)]

theorem writeScientific_of_isFinite (hx : x.isFinite = true) : writeScientific x =
    signed x (if x == 0 then "0e0".toList else (shortest x).toDigits.scientific) := by
  rw [writeScientific, not_isNaN_of_isFinite hx, not_isInf_of_isFinite hx,
    if_neg Bool.false_ne_true, if_neg Bool.false_ne_true, apply_ite (signed x)]

theorem Spelling.not_isNaN_value (s : Spelling) : s.value.isNaN = false := by
  rw [value, Decimal.toDouble_eq_nearest, not_isNaN_nearest]

theorem Spelling.not_isNegative_value (s : Spelling) : isNegative s.value = false := by
  rw [value, Decimal.toDouble_eq_nearest, isNegative_nearest (Decimal.toRat_nonneg _)]

/-- What a numeral denotes is a number. -/
theorem SignedSpelling.not_isNaN_value (s : SignedSpelling) : s.value.isNaN = false := by
  have hmagnitude := s.magnitude.not_isNaN_value
  rw [value]
  split
  · rwa [isNaN_neg]
  · exact hmagnitude

/-- What a numeral denotes has the sign of the numeral. -/
theorem SignedSpelling.isNegative_value (s : SignedSpelling) : isNegative s.value = s.negative := by
  have hnumber : ¬s.magnitude.value.isNaN = true := by
    rw [s.magnitude.not_isNaN_value]
    exact Bool.false_ne_true
  have hpositive := s.magnitude.not_isNegative_value
  rw [value]
  cases s.negative with
  | true => rw [if_pos rfl, isNegative_neg hnumber, hpositive, Bool.not_false]
  | false => rw [if_neg Bool.false_ne_true, hpositive]

theorem SignedSpelling.magnitude_value (s : SignedSpelling) :
    Numeral.magnitude s.value = Numeral.magnitude s.magnitude.value := by
  rw [value]
  split
  · exact magnitude_neg _
  · rfl

/-- Without its sign, what a numeral denotes is what the unsigned numeral denotes. -/
theorem SignedSpelling.abs_value (s : SignedSpelling) :
    s.value.abs = s.magnitude.value := by
  refine eq_of_magnitudeBits_eq ?_ ?_
  · rw [isNegative_abs, s.magnitude.not_isNegative_value]
  · rw [magnitudeBits_abs, value]
    split
    · exact magnitudeBits_neg _
    · rfl

/-- The shortest decimal of a number in either layout spells the number. -/
theorem spellsDouble_shortest (hx : x.isFinite = true) (hzero : ¬(x == 0) = true) :
    SpellsDouble (signed x (shortest x).toDigits.positional) x ∧
      SpellsDouble (signed x (shortest x).toDigits.scientific) x := by
  have hproper := Decimal.toDigits_proper (shortest_coefficient_ne_zero hx hzero)
  have hnearest : nearest (shortest x).toDigits.toRat = x.abs := by
    rw [Decimal.toDigits_toRat, ← Decimal.toDouble_eq_nearest, shortest_toDouble hx]
  exact ⟨spellsDouble_signed (Digits.spells_positional hproper) hnearest,
    spellsDouble_signed (Digits.spells_scientific hproper) hnearest⟩

/-- What is written of a finite number is a numeral that denotes the number shown. -/
theorem spellsDouble_write (hx : x.isFinite = true) : SpellsDouble (write x) (shown x) := by
  rw [write_of_isFinite hx, shown]
  by_cases hsmall : x.abs < snapBound
  · rw [if_pos hsmall, if_pos hsmall]
    exact ⟨⟨false, ⟨⟨['0'], by simp, by simp⟩, none, none⟩⟩, rfl, rfl⟩
  · rw [if_neg hsmall, if_neg hsmall]
    have hzero : ¬(x == 0) = true := fun h => hsmall (snapBound_of_beq_zero h)
    obtain ⟨hpositional, hscientific⟩ := spellsDouble_shortest hx hzero
    split
    · rwa [writePositional_of_isFinite hx, if_neg hzero]
    · rwa [writeScientific_of_isFinite hx, if_neg hzero]

/-- A number without a sign is written as a numeral. -/
theorem exists_writePositional (hx : x.isFinite = true) (hsign : isNegative x = false) :
    ∃ s : Spelling, s.text = writePositional x ∧ s.value = x := by
  rw [writePositional_of_isFinite hx, signed, hsign, if_neg Bool.false_ne_true]
  by_cases hzero : (x == 0) = true
  · refine ⟨⟨⟨['0'], by simp, by simp⟩, none, none⟩, ?_, ?_⟩
    · rw [if_pos hzero]
      rfl
    · refine eq_of_magnitudeBits_eq ?_ ?_
      · rw [hsign]
        rfl
      · rw [(beq_zero_iff x).1 hzero]
        rfl
  · have hproper := Decimal.toDigits_proper (shortest_coefficient_ne_zero hx hzero)
    obtain ⟨s, htext, hvalue⟩ := Digits.spells_positional hproper
    refine ⟨s, by rw [if_neg hzero, htext], ?_⟩
    rw [Spelling.value, Decimal.toDouble_eq_nearest, hvalue, Decimal.toDigits_toRat,
      ← Decimal.toDouble_eq_nearest, shortest_toDouble hx, abs_of_not_isNegative hsign]

theorem write_zero : write 0 = ['0'] := by
  rw [write, if_neg (by decide), if_neg (by decide), if_pos (by decide)]
  rfl

theorem isFinite_shown (hx : x.isFinite = true) : (shown x).isFinite = true := by
  rw [shown]
  split
  · decide
  · exact hx

theorem abs_of_isInf (hx : x.isInf = true) : x.abs = infinity := by
  apply eq_of_magnitudeBits_eq
  · rw [isNegative_abs, infinity, isNegative_ofBits le_rfl]
  · rw [magnitudeBits_abs, (isInf_iff x).1 hx, infinity, magnitudeBits_ofBits le_rfl]

/-- Only finite numbers are noise. -/
theorem isFinite_of_lt_snapBound (hsmall : x.abs < snapBound) : x.isFinite = true := by
  by_contra hinfinite
  rw [isFinite_iff, not_lt] at hinfinite
  rcases hinfinite.eq_or_lt with heq | hlt
  · rw [abs_of_isInf ((isInf_iff x).2 heq.symm)] at hsmall
    exact absurd hsmall (by decide)
  · have hnan := (isNaN_iff x).2 hlt
    rw [abs_of_isNaN hnan, eq_nan_of_isNaN hnan] at hsmall
    exact absurd hsmall (by decide)

/-- Writing the number shown changes nothing. -/
theorem write_shown (x : Float) : write (shown x) = write x := by
  rw [shown]
  split
  · next hsmall =>
    have hx := isFinite_of_lt_snapBound hsmall
    rw [write_zero, write_of_isFinite hx, if_pos hsmall]
    rfl
  · rfl

theorem shown_of_not_isFinite (hx : x.isFinite = false) : shown x = x := by
  rw [shown, if_neg]
  intro hsmall
  rw [isFinite_of_lt_snapBound hsmall] at hx
  cases hx

theorem write_of_isNaN (hx : x.isNaN = true) : write x = notANumberWord := by
  rw [write, if_pos hx]

theorem write_of_isInf (hx : x.isInf = true) : write x = signed x infinityWord := by
  have hnumber : ¬x.isNaN = true := by
    rw [isNaN_iff, (isInf_iff x).1 hx]
    exact lt_irrefl _
  rw [write, if_neg hnumber, if_pos hx]

/-- A double is finite, infinite or not a number. -/
theorem kind_cases (x : Float) : x.isFinite = true ∨ x.isInf = true ∨ x.isNaN = true := by
  rw [isFinite_iff, isInf_iff, isNaN_iff]
  omega

theorem neg_infinity_of_isNegative (hx : x.isInf = true) (hsign : isNegative x = true) :
    -infinity = x := by
  rw [← abs_of_isInf hx, neg_abs_of_isNegative hsign]

theorem infinity_of_not_isNegative (hx : x.isInf = true) (hsign : isNegative x = false) :
    infinity = x := by
  rw [← abs_of_isInf hx, abs_of_not_isNegative hsign]

theorem not_isFinite_of_isInf (hx : x.isInf = true) : x.isFinite = false := by
  rw [← Bool.not_eq_true, isFinite_iff, (isInf_iff x).1 hx]
  exact lt_irrefl _

theorem not_isFinite_of_isNaN (hx : x.isNaN = true) : x.isFinite = false := by
  rw [← Bool.not_eq_true, isFinite_iff]
  exact ((isNaN_iff x).1 hx).not_gt

theorem not_isNaN_of_isInf (hx : x.isInf = true) : x.isNaN = false := by
  rw [← Bool.not_eq_true, isNaN_iff, (isInf_iff x).1 hx]
  exact lt_irrefl _

/-- Every number is read back as it is shown. -/
theorem read?_write (x : Float) : read? (write x) = some (shown x) := by
  rcases kind_cases x with hx | hx | hx
  · obtain ⟨s, htext, hvalue⟩ := spellsDouble_write hx
    rw [← htext, s.read?_text, hvalue]
  · rw [write_of_isInf hx, shown_of_not_isFinite (not_isFinite_of_isInf hx), signed]
    cases hsign : isNegative x with
    | true => exact congrArg some (neg_infinity_of_isNegative hx hsign)
    | false => exact congrArg some (infinity_of_not_isNegative hx hsign)
  · rw [write_of_isNaN hx, shown_of_not_isFinite (not_isFinite_of_isNaN hx)]
    exact congrArg some (eq_nan_of_isNaN hx).symm

theorem write_ne_nil (x : Float) : write x ≠ [] := by
  intro hnil
  have hread := read?_write x
  rw [hnil] at hread
  cases hread

end MatrixCalculator.Numeral
