import MatrixCalculator.Base.Output
import MatrixCalculator.Proofs.Numeral.Exact
import MatrixCalculator.Proofs.Numeral.Written

/-!
# Digits of a base

The digits that are written of a number denote the number, and those of a fraction
denote the fraction cut behind the last place.  They are written without zeros that
mean nothing: none in front of a whole part, none behind a fraction.
-/

namespace MatrixCalculator.Base

open Numeral

variable {base : Base} {n places : Nat} {c : Char} {text left right : Text}

theorem one_lt_radix (base : Base) : 1 < base.radix := by cases base <;> decide

theorem radix_le (base : Base) : base.radix ≤ 16 := by cases base <;> decide

theorem radix_pos (base : Base) : 0 < base.radix := Nat.lt_of_succ_lt base.one_lt_radix

def IsDigit (base : Base) (c : Char) : Prop :=
  isNumeralChar c = true ∧ digitValue c < base.radix

instance (base : Base) (c : Char) : Decidable (base.IsDigit c) :=
  inferInstanceAs (Decidable (_ ∧ _))

/-- What holds for the sixteen numeral characters holds for every one. -/
theorem of_isNumeralChar (p : Char → Prop) (hdigits : ∀ d ∈ "0123456789ABCDEF".toList, p d)
    (hc : isNumeralChar c = true) : p c := by
  rw [isNumeralChar, Bool.or_eq_true, Bool.and_eq_true, decide_eq_true_eq, decide_eq_true_eq] at hc
  rcases hc with hc | ⟨hlow, hhigh⟩
  · exact of_isDigit p (fun d hd => hdigits d (List.mem_append_left _ hd)) hc
  · have hrange : 65 ≤ c.toNat ∧ c.toNat ≤ 70 := ⟨hlow, hhigh⟩
    have heq : c = Char.ofNat c.toNat := (Char.ofNat_toNat c).symm
    obtain ⟨hlow, hhigh⟩ := hrange
    refine hdigits c ?_
    rw [heq]
    interval_cases c.toNat <;> decide

def digitChar (n : Nat) : Char := n.digitChar.toUpper

theorem digitChar_cases (hn : n < 16) :
    isNumeralChar (digitChar n) = true ∧ digitValue (digitChar n) = n := by
  interval_cases n <;> decide

theorem digitValue_digitChar (hn : n < base.radix) : digitValue (digitChar n) = n :=
  (digitChar_cases (hn.trans_le base.radix_le)).2

theorem digitChar_digitValue (hc : isNumeralChar c = true) : digitChar (digitValue c) = c :=
  of_isNumeralChar (fun c => digitChar (digitValue c) = c) (List.all_iff_forall_prop.1 (by decide))
    hc

theorem isDigit_digitChar (hn : n < base.radix) : base.IsDigit (digitChar n) :=
  ⟨(digitChar_cases (hn.trans_le base.radix_le)).1, by rwa [digitValue_digitChar hn]⟩

theorem isDigit_zero (base : Base) : base.IsDigit '0' := isDigit_digitChar base.radix_pos

/-! ## The number that digits denote -/

/-- The number that digits denote, the first of them the highest. -/
def denoted (base : Base) (text : Text) : Nat :=
  Nat.ofDigits base.radix (text.map digitValue).reverse

theorem denoted_append (base : Base) (left right : Text) : base.denoted (left ++ right) =
    base.denoted left * base.radix ^ right.length + base.denoted right := by
  rw [denoted, List.map_append, List.reverse_append, Nat.ofDigits_append, List.length_reverse,
    List.length_map, Nat.add_comm, Nat.mul_comm]
  rfl

theorem denoted_singleton (base : Base) (c : Char) : base.denoted [c] = digitValue c :=
  Nat.ofDigits_singleton ..

theorem denoted_zeros (base : Base) (count : Nat) :
    base.denoted (List.replicate count '0') = 0 := by
  induction count with
  | zero => rfl
  | succ count ih =>
    rw [List.replicate_succ', denoted_append, ih, Nat.zero_mul, denoted_singleton]
    decide

theorem forall_digitValue_lt (htext : ∀ c ∈ text, base.IsDigit c) :
    ∀ digit ∈ (text.map digitValue).reverse, digit < base.radix := by
  intro digit hdigit
  obtain ⟨c, hc, rfl⟩ := List.mem_map.1 (List.mem_reverse.1 hdigit)
  exact (htext c hc).2

theorem denoted_lt (htext : ∀ c ∈ text, base.IsDigit c) :
    base.denoted text < base.radix ^ text.length := by
  have hlt := Nat.ofDigits_lt_base_pow_length base.one_lt_radix (forall_digitValue_lt htext)
  rwa [List.length_reverse, List.length_map] at hlt

/-- Texts with the same number of digits are equal if they denote the same number. -/
theorem eq_of_denoted_eq (hlength : left.length = right.length)
    (hleft : ∀ c ∈ left, base.IsDigit c) (hright : ∀ c ∈ right, base.IsDigit c)
    (hdenoted : base.denoted left = base.denoted right) : left = right := by
  have hchars : ∀ text : Text, (∀ c ∈ text, base.IsDigit c) →
      (text.map digitValue).map digitChar = text := by
    intro text htext
    rw [List.map_map]
    exact (List.map_congr_left fun c hc => digitChar_digitValue (htext c hc).1).trans
      (List.map_id text)
  have hvalues := Nat.ofDigits_inj_of_len_eq base.one_lt_radix (by simp [hlength])
    (forall_digitValue_lt hleft) (forall_digitValue_lt hright) hdenoted
  rw [← hchars left hleft, List.reverse_inj.1 hvalues, hchars right hright]

/-! ## Whole numbers -/

theorem digitsOf_of_lt (hn : n < base.radix) : base.digitsOf n = [digitChar n] := by
  rw [digitsOf, Nat.toDigits_of_lt_base hn]
  rfl

theorem digitsOf_of_le (hn : base.radix ≤ n) :
    base.digitsOf n = base.digitsOf (n / base.radix) ++ [digitChar (n % base.radix)] := by
  rw [digitsOf, Nat.toDigits_of_base_le base.one_lt_radix hn, List.map_append]
  rfl

theorem digitsOf_ne_nil (base : Base) (n : Nat) : base.digitsOf n ≠ [] := by
  simp [digitsOf, Nat.toDigits_ne_nil]

/-- A property of written whole numbers, from the number without its last digit. -/
theorem digitsOf_induction (base : Base) {motive : Nat → Prop}
    (hlt : ∀ n < base.radix, motive n)
    (hle : ∀ n, base.radix ≤ n → motive (n / base.radix) → motive n) (n : Nat) : motive n := by
  induction n using Nat.strongRecOn with
  | ind n ih =>
    by_cases hn : n < base.radix
    · exact hlt n hn
    · have hradix := not_lt.1 hn
      exact hle n hradix (ih _ (Nat.div_lt_self (base.radix_pos.trans_le hradix) base.one_lt_radix))

theorem isDigit_of_mem_digits (hc : c ∈ base.digitsOf n) : base.IsDigit c := by
  induction n using digitsOf_induction base with
  | hlt n hn =>
    rw [digitsOf_of_lt hn, List.mem_singleton] at hc
    exact hc ▸ isDigit_digitChar hn
  | hle n hn ih =>
    rw [digitsOf_of_le hn, List.mem_append, List.mem_singleton] at hc
    rcases hc with hc | rfl
    · exact ih hc
    · exact isDigit_digitChar (Nat.mod_lt _ base.radix_pos)

theorem denoted_digitsOf (base : Base) (n : Nat) : base.denoted (base.digitsOf n) = n := by
  induction n using digitsOf_induction base with
  | hlt n hn => rw [digitsOf_of_lt hn, denoted_singleton, digitValue_digitChar hn]
  | hle n hn ih =>
    rw [digitsOf_of_le hn, denoted_append, ih, denoted_singleton,
      digitValue_digitChar (Nat.mod_lt _ base.radix_pos), List.length_singleton, pow_one]
    exact Nat.div_add_mod' n base.radix

/-- No zero stands in front of a whole number. -/
theorem digitsOf_of_head? (hhead : (base.digitsOf n).head? = some '0') :
    base.digitsOf n = ['0'] := by
  induction n using digitsOf_induction base with
  | hlt n hn =>
    rw [digitsOf_of_lt hn] at hhead ⊢
    rw [Option.some.inj hhead]
  | hle n hn ih =>
    rw [digitsOf_of_le hn, List.head?_append_of_ne_nil _ (digitsOf_ne_nil _ _)] at hhead
    have hzero := denoted_digitsOf base (n / base.radix)
    rw [ih hhead, show base.denoted ['0'] = 0 from base.denoted_zeros 1] at hzero
    have := Nat.div_pos hn base.radix_pos
    omega

theorem length_digitsOf_le (hplaces : 0 < places) (hn : n < base.radix ^ places) :
    (base.digitsOf n).length ≤ places := by
  induction places, hplaces using Nat.le_induction generalizing n with
  | base => rw [digitsOf_of_lt (by simpa using hn), List.length_singleton]
  | succ places _ ih =>
    by_cases hlt : n < base.radix
    · rw [digitsOf_of_lt hlt, List.length_singleton]
      omega
    · rw [digitsOf_of_le (not_lt.1 hlt), List.length_append, List.length_singleton]
      exact Nat.succ_le_succ (ih (Nat.div_lt_of_lt_mul (by rwa [pow_succ'] at hn)))

/-! ## Fractions -/

/-- A text without the zeros at its right end. -/
def trimZeros (text : Text) : Text := (text.reverse.dropWhile (· == '0')).reverse

theorem exists_trimZeros (text : Text) :
    ∃ count, text = trimZeros text ++ List.replicate count '0' := exists_trailing_zeros text

theorem mem_of_mem_trimZeros (hc : c ∈ trimZeros text) : c ∈ text := by
  obtain ⟨count, hcount⟩ := exists_trimZeros text
  rw [hcount]
  exact List.mem_append_left _ hc

theorem length_trimZeros_le (text : Text) : (trimZeros text).length ≤ text.length := by
  obtain ⟨count, hcount⟩ := exists_trimZeros text
  conv_rhs => rw [hcount, List.length_append]
  exact Nat.le_add_right _ _

theorem getLast?_trimZeros (text : Text) : (trimZeros text).getLast? ≠ some '0' := by
  intro hlast
  rw [trimZeros, List.getLast?_reverse] at hlast
  have hkept := List.head?_dropWhile_not (· == '0') text.reverse
  rw [hlast] at hkept
  exact absurd hkept (by decide)

def padded (base : Base) (places n : Nat) : Text :=
  List.replicate (places - (base.digitsOf n).length) '0' ++ base.digitsOf n

theorem isDigit_of_mem_padded (hc : c ∈ base.padded places n) :
    base.IsDigit c := by
  rcases List.mem_append.1 hc with hc | hc
  · exact List.eq_of_mem_replicate hc ▸ base.isDigit_zero
  · exact isDigit_of_mem_digits hc

theorem length_padded (hplaces : 0 < places) (hn : n < base.radix ^ places) :
    (base.padded places n).length = places := by
  rw [padded, List.length_append, List.length_replicate]
  exact Nat.sub_add_cancel (length_digitsOf_le hplaces hn)

theorem denoted_padded (base : Base) (places n : Nat) :
    base.denoted (base.padded places n) = n := by
  rw [padded, denoted_append, denoted_zeros, Nat.zero_mul, Nat.zero_add, denoted_digitsOf]

theorem fractionDigits_eq (base : Base) (fraction : Rat) : base.fractionDigits fraction =
    trimZeros (base.padded fractionPlaces
      (fraction * (base.radix : Rat) ^ fractionPlaces).floor.toNat) := rfl

theorem isDigit_of_mem_fractionDigits {fraction : Rat} (hc : c ∈ base.fractionDigits fraction) :
    base.IsDigit c :=
  isDigit_of_mem_padded (mem_of_mem_trimZeros hc)

/-! ## Cut fractions -/

/-- A number without what follows the last place. -/
def cut (base : Base) (r : Rat) : Rat :=
  (r * (base.radix : Rat) ^ fractionPlaces).floor / (base.radix : Rat) ^ fractionPlaces

def denotedFraction (base : Base) (whole fraction : Text) : Rat :=
  base.denoted (whole ++ fraction) / (base.radix : Rat) ^ fraction.length

theorem radix_pow_pos (base : Base) (k : Nat) : (0 : Rat) < (base.radix : Rat) ^ k :=
  pow_pos (Nat.cast_pos.2 base.radix_pos) k

theorem scaled_lt (base : Base) {f : Rat} (hlow : 0 ≤ f) (hhigh : f < 1) (places : Nat) :
    (f * (base.radix : Rat) ^ places).floor.toNat < base.radix ^ places := by
  have hlt : f * (base.radix : Rat) ^ places < (base.radix : Rat) ^ places :=
    mul_lt_of_lt_one_left (base.radix_pow_pos places) hhigh
  have hscaled := toNat_floor (mul_nonneg hlow (base.radix_pow_pos places).le)
  have hcast : ((f * (base.radix : Rat) ^ places).floor.toNat : Rat) <
      (base.radix ^ places : Nat) := by
    rw [hscaled, Nat.cast_pow]
    exact (Rat.floor_le _).trans_lt hlt
  exact_mod_cast hcast

/-- The digits of a fraction with the zeros that have been dropped. -/
theorem exists_fractionDigits (base : Base) {f : Rat} (hlow : 0 ≤ f) (hhigh : f < 1) :
    ∃ count, (base.fractionDigits f).length + count = fractionPlaces ∧
      base.denoted (base.fractionDigits f) * base.radix ^ count =
        (f * (base.radix : Rat) ^ fractionPlaces).floor.toNat := by
  obtain ⟨count, hcount⟩ := exists_trimZeros (base.padded fractionPlaces
    (f * (base.radix : Rat) ^ fractionPlaces).floor.toNat)
  rw [← fractionDigits_eq] at hcount
  refine ⟨count, ?_, ?_⟩
  · have hlength := congrArg List.length hcount
    rw [length_padded (by decide) (base.scaled_lt hlow hhigh _), List.length_append,
      List.length_replicate] at hlength
    exact hlength.symm
  · have hdenoted := congrArg base.denoted hcount
    rw [denoted_padded, denoted_append, denoted_zeros, List.length_replicate] at hdenoted
    exact hdenoted.symm

/-- What is written of a number denotes the number cut behind the last place. -/
theorem denotedFraction_render {r : Rat} (hr : 0 ≤ r) :
    base.denotedFraction (base.digitsOf r.floor.toNat) (base.fractionDigits (r - r.floor)) =
      base.cut r := by
  have hlow := sub_floor_nonneg r
  obtain ⟨count, hlength, hdenoted⟩ := base.exists_fractionDigits hlow (sub_floor_lt_one r)
  have hscaled : ((r - r.floor) * (base.radix : Rat) ^ fractionPlaces).floor =
      (r * (base.radix : Rat) ^ fractionPlaces).floor - r.floor * base.radix ^ fractionPlaces := by
    have hsplit : (r - r.floor) * (base.radix : Rat) ^ fractionPlaces =
        r * (base.radix : Rat) ^ fractionPlaces -
          ((r.floor * base.radix ^ fractionPlaces : Int) : Rat) := by
      push_cast
      ring
    rw [hsplit]
    exact Int.floor_sub_intCast (r * (base.radix : Rat) ^ fractionPlaces) _
  have hcut : (base.denoted (base.fractionDigits (r - r.floor)) : Rat) * base.radix ^ count =
      (r * (base.radix : Rat) ^ fractionPlaces).floor - r.floor * base.radix ^ fractionPlaces := by
    have hcast := congrArg (Nat.cast (R := Rat)) hdenoted
    rw [toNat_floor (mul_nonneg hlow (base.radix_pow_pos _).le), hscaled] at hcast
    push_cast at hcast
    exact hcast
  rw [denotedFraction, denoted_append, denoted_digitsOf, cut, ← hlength, pow_add]
  rw [← hlength, pow_add] at hcut
  push_cast
  rw [toNat_floor hr]
  have hleft := (base.radix_pow_pos (base.fractionDigits (r - r.floor)).length).ne'
  have hright := (base.radix_pow_pos count).ne'
  rw [div_eq_div_iff hleft (mul_ne_zero hleft hright)]
  linear_combination (base.radix : Rat) ^ (base.fractionDigits (r - r.floor)).length * hcut

end MatrixCalculator.Base
