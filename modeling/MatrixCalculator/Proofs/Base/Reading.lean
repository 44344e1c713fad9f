import MatrixCalculator.Proofs.Base.Input
import MatrixCalculator.Proofs.Base.Output

/-!
# Numerals of a base are read exactly

Outside the decimal base the radix is a power of two.  Then all totals on the way to a
representable number are cuts of that number, so none of them is rounded, and a numeral
is read as exactly the number that it denotes.
-/

namespace MatrixCalculator.Base

open Numeral Outcome

variable {base : Base} {whole fraction text : Text}

/-- The bits of a digit, outside the decimal base. -/
theorem exists_radix_eq (hbase : base ≠ .decimal) :
    ∃ bits ≤ 4, base.radix = 2 ^ bits := by
  cases base with
  | binary => exact ⟨1, by decide, rfl⟩
  | decimal => exact absurd rfl hbase
  | hexadecimal => exact ⟨4, by decide, rfl⟩

/-- A magnitude cut at a number of places is representable if the magnitude is. -/
theorem representable_cut (hbase : base ≠ .decimal) {r : Rat} (hr : Representable r)
    (places : Nat) :
    Representable ((r * (base.radix : Rat) ^ places).floor / (base.radix : Rat) ^ places) := by
  obtain ⟨bits, -, hradix⟩ := exists_radix_eq hbase
  have hpow : (base.radix : Rat) ^ places = ((2 : Rat) ^ (-((bits * places : Nat) : Int)))⁻¹ := by
    rw [hradix, zpow_neg, inv_inv, zpow_natCast, pow_mul]
    push_cast
    rfl
  rw [hpow, ← div_eq_mul_inv, div_inv_eq_mul]
  exact hr.cut _

/-- A total that ends at a place, with more digits behind the place. -/
def extended (base : Base) (total place : Nat) (text : Text) : Rat :=
  (total * base.radix ^ text.length + base.denoted text : Nat) /
    (base.radix : Rat) ^ (place + text.length)

theorem extended_nil (base : Base) (total place : Nat) :
    base.extended total place [] = total / (base.radix : Rat) ^ place := by
  simp [extended, denoted]

theorem extended_cons (base : Base) (total place : Nat) (c : Char) (text : Text) :
    base.extended total place (c :: text) =
      base.extended (total * base.radix + digitValue c) (place + 1) text := by
  have hdenoted : base.denoted (c :: text) =
      digitValue c * base.radix ^ text.length + base.denoted text := by
    rw [← List.singleton_append, denoted_append, denoted_singleton]
  have htotal : total * base.radix ^ (text.length + 1) + base.denoted (c :: text) =
      (total * base.radix + digitValue c) * base.radix ^ text.length + base.denoted text := by
    rw [hdenoted]
    ring
  rw [extended, extended, List.length_cons, htotal, Nat.add_right_comm, Nat.add_assoc place]

theorem denotedFraction_eq_extended (base : Base) (whole fraction : Text) :
    base.denotedFraction whole fraction = base.extended (base.denoted whole) 0 fraction := by
  rw [denotedFraction, denoted_append, extended, Nat.zero_add]

/-- A total is a cut of what it is extended to. -/
theorem floor_extended (htext : ∀ c ∈ text, base.IsDigit c) (total place : Nat) :
    (base.extended total place text * (base.radix : Rat) ^ place).floor = total := by
  have hlt : (base.denoted text : Rat) < base.radix ^ text.length := by
    exact_mod_cast denoted_lt htext
  have hpow := base.radix_pow_pos text.length
  have hvalue : base.extended total place text * (base.radix : Rat) ^ place =
      total + base.denoted text / (base.radix : Rat) ^ text.length := by
    have hplace := (base.radix_pow_pos place).ne'
    rw [extended, pow_add]
    push_cast
    field_simp
  rw [hvalue]
  exact floor_natCast_add total (div_nonneg (Nat.cast_nonneg _) hpow.le) ((div_lt_one hpow).2 hlt)

theorem representable_total (hbase : base ≠ .decimal) (htext : ∀ c ∈ text, base.IsDigit c)
    {total place : Nat} (hvalue : Representable (base.extended total place text)) :
    Representable (total / (base.radix : Rat) ^ place) := by
  have hcut := representable_cut hbase hvalue place
  rwa [floor_extended htext, Int.cast_natCast] at hcut

/-! ## Totals -/

theorem wholeValue_append (base : Base) (left : List Nat) (digit : Nat) :
    base.wholeValue (left ++ [digit]) =
      nearest (value (base.wholeValue left) * base.radix + (digit : Rat)) := by
  rw [wholeValue, List.foldl_append]
  rfl

/-- A whole part is read exactly, as all that precedes its last digit is. -/
theorem wholeValue_isExact (hbase : base ≠ .decimal) (htext : ∀ c ∈ text, base.IsDigit c)
    (hvalue : Representable (base.denoted text)) :
    IsExact (base.wholeValue (text.map digitValue)) (base.denoted text) := by
  -- The total in front of the last digit is the whole part of the quotient by the radix.
  induction text using List.reverseRecOn with
  | nil => exact_mod_cast isExact_zero
  | append_singleton text c ih =>
    obtain ⟨hleft, hlast⟩ := List.forall_mem_append.1 htext
    have hprefix : Representable (base.denoted text) := by
      obtain ⟨bits, hbits, hradix⟩ := exists_radix_eq hbase
      have hshifted : Representable (base.extended (base.denoted text) 0 [c]) := by
        rw [← denotedFraction_eq_extended, denotedFraction, List.length_singleton, pow_one, hradix,
          Nat.cast_pow]
        exact hvalue.natCast_div (by omega)
      have htotal := representable_total hbase hlast hshifted
      rwa [pow_zero, div_one] at htotal
    rw [List.map_append, List.map_singleton, wholeValue_append, (ih hleft hprefix).value]
    have htotal : (base.denoted text : Rat) * base.radix + digitValue c =
        base.denoted (text ++ [c]) := by
      rw [denoted_append, denoted_singleton, List.length_singleton, pow_one]
      push_cast
      rfl
    rw [htotal]
    exact hvalue.isExact

/-- Whether the digits at a number of places are no finer than doubles can be. -/
def CountsPlaces (base : Base) (places : Nat) : Prop :=
  finestGrid ≤ -((base.radix.log2 * places : Nat) : Int)

instance (base : Base) (places : Nat) : Decidable (base.CountsPlaces places) :=
  inferInstanceAs (Decidable (_ ≤ _))

theorem CountsPlaces.mono {places fewer : Nat} (hplaces : base.CountsPlaces places)
    (hle : fewer ≤ places) : base.CountsPlaces fewer := by
  have hbits := Nat.mul_le_mul_left base.radix.log2 hle
  rw [CountsPlaces] at hplaces ⊢
  omega

theorem countsPlaces_fractionPlaces (base : Base) : base.CountsPlaces fractionPlaces := by
  cases base <;> decide

theorem radix_eq_two_pow (hbase : base ≠ .decimal) : base.radix = 2 ^ base.radix.log2 := by
  cases base with
  | decimal => exact absurd rfl hbase
  | binary | hexadecimal => decide

theorem representable_place (hbase : base ≠ .decimal) {place : Nat}
    (hplace : base.CountsPlaces place) : Representable (1 / (base.radix : Rat) ^ place) := by
  have hpow : 1 / (base.radix : Rat) ^ place =
      2 ^ (-((base.radix.log2 * place : Nat) : Int)) := by
    rw [zpow_neg, zpow_natCast, pow_mul, one_div]
    conv_lhs => rw [radix_eq_two_pow hbase, Nat.cast_pow, Nat.cast_ofNat]
  rw [hpow]
  exact representable_two_zpow hplace (by omega)

/-- Digits are added exactly to a total that ends at a place. -/
theorem addFraction_isExact (hbase : base ≠ .decimal) (htext : ∀ c ∈ text, base.IsDigit c)
    {total place : Nat} {x y : Float} (hplaces : base.CountsPlaces (place + text.length))
    (hx : text ≠ [] → IsExact x (1 / (base.radix : Rat) ^ (place + 1)))
    (hy : IsExact y (total / (base.radix : Rat) ^ place))
    (hvalue : Representable (base.extended total place text)) :
    IsExact (base.addFraction x y (text.map digitValue)) (base.extended total place text) := by
  induction text generalizing total place x y with
  | nil => exact extended_nil base total place ▸ hy
  | cons c text ih =>
    obtain ⟨-, htext⟩ := List.forall_mem_cons.1 htext
    have hx := hx (List.cons_ne_nil c text)
    rw [extended_cons] at hvalue ⊢
    rw [List.length_cons] at hplaces
    have hradix : (base.radix : Rat) ≠ 0 := Nat.cast_ne_zero.2 base.radix_pos.ne'
    have hfiner : value x / base.radix = 1 / (base.radix : Rat) ^ (place + 1 + 1) := by
      rw [hx.value, pow_succ _ (place + 1)]
      field_simp
    have hsum : value y + digitValue c * value x =
        (total * base.radix + digitValue c : Nat) / (base.radix : Rat) ^ (place + 1) := by
      rw [hx.value, hy.value, pow_succ]
      push_cast
      field_simp
    rw [List.map_cons, addFraction, hfiner, hsum]
    refine ih htext (hplaces.mono (by omega)) (fun hmore => ?_)
      (representable_total hbase htext hvalue).isExact hvalue
    have hlength := List.length_pos_iff.2 hmore
    exact (representable_place hbase (hplaces.mono (by omega))).isExact

/-- Zeros add nothing, even where their place counts nothing. -/
theorem addFraction_zeros {r : Rat} {x y : Float} (hy : IsExact y r) (count : Nat) :
    IsExact (base.addFraction x y (List.replicate count 0)) r := by
  induction count generalizing x y with
  | zero => exact hy
  | succ count ih =>
    rw [List.replicate_succ, addFraction, hy.value, Nat.cast_zero, zero_mul, add_zero]
    exact ih hy.representable.isExact

theorem exists_addFraction_append (base : Base) (x y : Float) (left right : List Nat) :
    ∃ x', base.addFraction x y (left ++ right) =
      base.addFraction x' (base.addFraction x y left) right := by
  induction left generalizing x y with
  | nil => exact ⟨x, rfl⟩
  | cons digit left ih => exact ih _ _

theorem denotedFraction_trimZeros (base : Base) (whole fraction : Text) :
    base.denotedFraction whole (trimZeros fraction) = base.denotedFraction whole fraction := by
  obtain ⟨count, hcount⟩ := exists_trimZeros fraction
  have hradix : (base.radix : Rat) ≠ 0 := Nat.cast_ne_zero.2 base.radix_pos.ne'
  have hzeros : base.denoted (whole ++ trimZeros fraction ++ List.replicate count '0') =
      base.denoted (whole ++ trimZeros fraction) * base.radix ^ count := by
    rw [denoted_append, denoted_zeros, List.length_replicate, add_zero]
  conv_rhs => rw [denotedFraction, hcount, ← List.append_assoc, hzeros, List.length_append,
    List.length_replicate, pow_add]
  rw [denotedFraction]
  push_cast
  field_simp

/-- A numeral with a representable value is read as this value, as long as its digits stand
at places that doubles can count. -/
theorem numeralValue_isExact (hbase : base ≠ .decimal) (hwhole : ∀ c ∈ whole, base.IsDigit c)
    (hfraction : ∀ c ∈ fraction, base.IsDigit c)
    (hplaces : base.CountsPlaces (trimZeros fraction).length)
    (hvalue : Representable (base.denotedFraction whole fraction)) :
    IsExact (base.numeralValue (whole.map digitValue) (fraction.map digitValue))
      (base.denotedFraction whole fraction) := by
  obtain ⟨count, hcount⟩ := exists_trimZeros fraction
  have hkept : ∀ c ∈ trimZeros fraction, base.IsDigit c := fun c hc =>
    hfraction c (mem_of_mem_trimZeros hc)
  rw [← denotedFraction_trimZeros, denotedFraction_eq_extended] at hvalue ⊢
  have htotal := representable_total hbase hkept hvalue
  rw [pow_zero, div_one] at htotal
  have hstart := wholeValue_isExact hbase hwhole htotal
  have hdigits : fraction.map digitValue =
      (trimZeros fraction).map digitValue ++ List.replicate count 0 := by
    conv_lhs => rw [hcount]
    rw [List.map_append, List.map_replicate]
    rfl
  rw [numeralValue, hdigits]
  obtain ⟨place, hsplit⟩ := base.exists_addFraction_append (nearest (1 / base.radix))
    (base.wholeValue (whole.map digitValue)) ((trimZeros fraction).map digitValue)
    (List.replicate count 0)
  rw [hsplit]
  refine addFraction_zeros ?_ count
  refine addFraction_isExact hbase hkept ((Nat.zero_add _).symm ▸ hplaces) (fun hmore => ?_) ?_
    hvalue
  · have hfirst : base.CountsPlaces 1 := hplaces.mono (List.length_pos_iff.2 hmore)
    have hplace := (representable_place hbase hfirst).isExact
    rw [pow_one] at hplace
    rwa [Nat.zero_add, pow_one]
  · rwa [pow_zero, div_one]

end MatrixCalculator.Base
