import MatrixCalculator.Proofs.Base.Reading

/-!
# Writing by loops over doubles

The whole part of a double can be written digit by digit, from the remainder and the
quotient by the radix, as long as one is left, and the fraction from the whole part of
its product with the radix.  No round of these loops rounds anything, so both of them
end, with the digits of the exact number.
-/

namespace MatrixCalculator.Base

open Numeral

variable {base : Base} {n : Nat} {r : Rat} {x : Float} {text : Text}

/-! ## The loops -/

def radixDouble (base : Base) : Float := nearest base.radix

/-- A run of the loop for a whole part: the last digit is the remainder, and the others are
those of the quotient. -/
inductive WholeLoop (base : Base) : Float → Text → Prop
  | done {x : Float} (hless : value x < 1) : WholeLoop base x []
  | round {x : Float} {text : Text} (hmore : 1 ≤ value x)
      (hrest : WholeLoop base (truncate (nearest (value x / base.radix))) text) :
      WholeLoop base x (text ++ [digitChar (toWord (remainder x base.radixDouble))])

/-- The loop for a fraction, which ends where nothing is left of it or after a number of
rounds. -/
def fractionLoop (base : Base) : (rounds : Nat) → (fraction : Float) → Text
  | 0, _ => []
  | rounds + 1, fraction =>
    if value fraction ≤ 0 then []
    else
      let scaled := nearest (value fraction * base.radix)
      let digit := truncate scaled
      digitChar (toWord digit) :: base.fractionLoop rounds (nearest (value scaled - value digit))

/-- A run of both loops for a double, with a zero where there is no whole part. -/
def LoopsWrite (base : Base) (x : Float) (text : Text) : Prop :=
  let whole := truncate x
  let fraction := base.fractionLoop fractionPlaces (nearest (value x - value whole))
  ∃ digits, WholeLoop base whole digits ∧
    text = digits ++ (if value whole < 1 then ['0'] else []) ++ withPoint (trimZeros fraction)

/-- The digits of a loop are determined by where it starts. -/
theorem WholeLoop.unique {left right : Text} (hleft : WholeLoop base x left)
    (hright : WholeLoop base x right) : left = right := by
  induction hleft generalizing right with
  | done hless =>
    cases hright with
    | done _ => rfl
    | round hmore _ => exact absurd hmore hless.not_ge
  | round hmore _ ih =>
    cases hright with
    | done hless => exact absurd hmore hless.not_ge
    | round _ hrest => rw [ih hrest]

/-! ## One round -/

theorem isExact_truncate (hx : IsExact x r) : IsExact (truncate x) r.floor.toNat := by
  have hcut := hx.representable.cut 0
  rw [zpow_zero, mul_one, div_one, ← toNat_floor hx.representable.nonneg] at hcut
  rw [truncate, if_pos hx.isFinite, hx.isNegative, hx.magnitude, if_neg Bool.false_ne_true,
    ← toNat_floor hx.representable.nonneg]
  exact hcut.isExact

theorem isExact_radixDouble (base : Base) : IsExact base.radixDouble base.radix :=
  (representable_natCast (base.radix_le.trans_lt (by decide))).isExact

theorem floor_div_radix (base : Base) (n : Nat) :
    ((n : Rat) / base.radix).floor = (n / base.radix : Nat) :=
  Rat.floor_natCast_div_natCast n base.radix

theorem representable_natCast_radix (hn : n < base.radix) : Representable n :=
  representable_natCast ((hn.trans_le base.radix_le).trans (by decide))

theorem isExact_remainder (hx : IsExact x n) :
    IsExact (remainder x base.radixDouble) (n % base.radix : Nat) := by
  have hradix := base.isExact_radixDouble
  have hnonzero := hradix.not_beq_zero (Nat.cast_ne_zero.2 base.radix_pos.ne')
  have hrest : (n : Rat) - ((n / base.radix : Nat) : Int) * base.radix =
      (n % base.radix : Nat) := by
    have hsplit : (n : Rat) = base.radix * (n / base.radix : Nat) + (n % base.radix : Nat) := by
      exact_mod_cast (Nat.div_add_mod n base.radix).symm
    rw [Int.cast_natCast]
    linarith
  have hguard : ¬(x.isFinite = false ∨ base.radixDouble.isNaN = true ∨
      (base.radixDouble == 0) = true) := by
    rw [hx.isFinite, not_isNaN_of_isFinite hradix.isFinite]
    simp [hnonzero]
  rw [remainder, if_neg hguard, not_isInf_of_isFinite hradix.isFinite,
    if_neg Bool.false_ne_true, hx.isNegative, hx.magnitude, hradix.magnitude, floor_div_radix]
  simp only [hrest, Bool.false_eq_true, if_false]
  exact (representable_natCast_radix (Nat.mod_lt n base.radix_pos)).isExact

/-- The digit of a round. -/
theorem toWord_remainder (hx : IsExact x n) :
    toWord (remainder x base.radixDouble) = n % base.radix :=
  toWord_eq (isExact_remainder hx)
    (((Nat.mod_lt n base.radix_pos).trans_le base.radix_le).trans (by decide))

/-- What is left after a round. -/
theorem isExact_quotient (hbase : base ≠ .decimal) (hx : IsExact x n) :
    IsExact (truncate (nearest (value x / base.radix))) (n / base.radix : Nat) := by
  obtain ⟨bits, hbits, hradix⟩ := exists_radix_eq hbase
  have hquotient : Representable (n / base.radix) := by
    rw [hradix, Nat.cast_pow]
    exact hx.representable.natCast_div (by omega)
  have hwhole := isExact_truncate hquotient.isExact
  rwa [floor_div_radix, Int.toNat_natCast, ← hx.value] at hwhole

/-! ## Whole parts -/

/-- The loop for a whole part ends with its digits, and without a digit for zero. -/
theorem wholeLoop_digits (hbase : base ≠ .decimal) (hx : IsExact x n) :
    WholeLoop base x (if n = 0 then [] else base.digitsOf n) := by
  -- Every round divides the number by the radix, so it is smaller.
  induction n using Nat.strongRecOn generalizing x with
  | ind n ih =>
    by_cases hzero : n = 0
    · rw [if_pos hzero]
      refine .done ?_
      rw [hx.value, hzero]
      norm_num
    · have hmore : 1 ≤ value x := by
        rw [hx.value]
        exact_mod_cast Nat.one_le_iff_ne_zero.2 hzero
      have hround := WholeLoop.round hmore
        (ih _ (Nat.div_lt_self (Nat.pos_of_ne_zero hzero) base.one_lt_radix)
          (isExact_quotient hbase hx))
      rw [toWord_remainder hx] at hround
      rw [if_neg hzero]
      by_cases hlt : n < base.radix
      · rwa [Nat.div_eq_of_lt hlt, if_pos rfl, List.nil_append, Nat.mod_eq_of_lt hlt,
          ← digitsOf_of_lt hlt] at hround
      · have hquotient := Nat.div_pos (not_lt.1 hlt) base.radix_pos
        rwa [if_neg hquotient.ne', ← digitsOf_of_le (not_lt.1 hlt)] at hround

/-! ## Fractions -/

/-- The first of several places holds the whole part of the product with the radix. -/
theorem scaled_succ (base : Base) {f : Rat} (hlow : 0 ≤ f) (places : Nat) :
    (f * (base.radix : Rat) ^ (places + 1)).floor.toNat =
      (f * base.radix).floor.toNat * base.radix ^ places +
        ((f * base.radix - (f * base.radix).floor) * (base.radix : Rat) ^ places).floor.toNat := by
  have hproduct : 0 ≤ f * base.radix := mul_nonneg hlow (Nat.cast_nonneg _)
  have hrest : 0 ≤ (f * base.radix - (f * base.radix).floor) * (base.radix : Rat) ^ places :=
    mul_nonneg (sub_floor_nonneg _) (base.radix_pow_pos places).le
  have hsplit : f * (base.radix : Rat) ^ (places + 1) =
      ((f * base.radix).floor.toNat * base.radix ^ places : Nat) +
        (f * base.radix - (f * base.radix).floor) * (base.radix : Rat) ^ places := by
    rw [Nat.cast_mul, toNat_floor hproduct]
    push_cast
    ring
  rw [hsplit, toNat_floor_natCast_add _ hrest]

/-- The product of a round. -/
theorem isExact_product (hbase : base ≠ .decimal) {f : Rat} (hx : IsExact x f) (hhigh : f < 1) :
    IsExact (nearest (value x * base.radix)) (f * base.radix) := by
  obtain ⟨bits, hbits, hradix⟩ := exists_radix_eq hbase
  have hpow : (base.radix : Rat) = 2 ^ bits := by rw [hradix, Nat.cast_pow, Nat.cast_ofNat]
  have hbound : f * (2 : Rat) ^ bits < 2 ^ (1024 : Int) := by
    calc f * (2 : Rat) ^ bits < 2 ^ bits := mul_lt_of_lt_one_left (by positivity) hhigh
      _ = 2 ^ (bits : Int) := (zpow_natCast 2 bits).symm
      _ ≤ 2 ^ (1024 : Int) := zpow_le_zpow_right₀ one_le_two (by omega)
  rw [hx.value, hpow]
  exact (hx.representable.shift hbound).isExact

/-- What is left of a product without its whole part. -/
theorem isExact_rest (hx : IsExact x r) :
    IsExact (nearest (value x - value (truncate x))) (r - r.floor) := by
  rw [hx.value, (isExact_truncate hx).value, toNat_floor hx.representable.nonneg]
  exact hx.representable.fraction.isExact

/-- The digits of the loop for a fraction are those of as many places as it has rounds, but
for zeros at the right end. -/
theorem exists_fractionLoop (hbase : base ≠ .decimal) (rounds : Nat) {f : Rat}
    (hx : IsExact x f) (hhigh : f < 1) :
    ∃ count, (base.fractionLoop rounds x).length + count = rounds ∧
      (∀ c ∈ base.fractionLoop rounds x, base.IsDigit c) ∧
      base.denoted (base.fractionLoop rounds x) * base.radix ^ count =
        (f * (base.radix : Rat) ^ rounds).floor.toNat := by
  induction rounds generalizing x f with
  | zero =>
    have hscaled := Nat.lt_one_iff.1 (base.scaled_lt hx.representable.nonneg hhigh 0)
    exact ⟨0, rfl, nofun, hscaled.symm⟩
  | succ rounds ih =>
    have hlow := hx.representable.nonneg
    rw [fractionLoop]
    split
    · next hnothing =>
      rw [hx.value] at hnothing
      refine ⟨rounds + 1, Nat.zero_add _, nofun, ?_⟩
      rw [le_antisymm hnothing hlow, zero_mul, show base.denoted [] = 0 from rfl, Nat.zero_mul]
      rfl
    · have hproduct := isExact_product hbase hx hhigh
      have hdigit := isExact_truncate hproduct
      have hless : (f * base.radix).floor.toNat < base.radix := by
        simpa using base.scaled_lt hlow hhigh 1
      have hword : toWord (truncate (nearest (value x * base.radix))) =
          (f * base.radix).floor.toNat :=
        toWord_eq hdigit ((hless.trans_le base.radix_le).trans (by decide))
      obtain ⟨count, hlength, hdigits, hdenoted⟩ :=
        ih (isExact_rest hproduct) (sub_floor_lt_one _)
      refine ⟨count, ?_, ?_, ?_⟩
      · simp only [List.length_cons]
        omega
      · simp only [hword]
        exact List.forall_mem_cons.2 ⟨isDigit_digitChar hless, hdigits⟩
      · simp only [hword]
        rw [scaled_succ base hlow, ← hdenoted, ← List.singleton_append, denoted_append,
          denoted_singleton, digitValue_digitChar hless, Nat.add_mul, Nat.mul_assoc, ← pow_add,
          hlength]

theorem trimZeros_append_zeros (text : Text) (count : Nat) :
    trimZeros (text ++ List.replicate count '0') = trimZeros text := by
  rw [trimZeros, trimZeros, List.reverse_append, List.reverse_replicate]
  congr 1
  exact List.dropWhile_append_of_pos (by simp)

theorem fractionLoop_eq (hbase : base ≠ .decimal) {f : Rat} (hx : IsExact x f) (hhigh : f < 1) :
    trimZeros (base.fractionLoop fractionPlaces x) = base.fractionDigits f := by
  obtain ⟨count, hlength, hdigits, hdenoted⟩ := exists_fractionLoop hbase fractionPlaces hx hhigh
  have hpadded : base.fractionLoop fractionPlaces x ++ List.replicate count '0' =
      base.padded fractionPlaces (f * (base.radix : Rat) ^ fractionPlaces).floor.toNat := by
    refine eq_of_denoted_eq ?_ (List.forall_mem_append.2 ⟨hdigits, fun c hc => ?_⟩)
      (fun _ => isDigit_of_mem_padded) ?_
    · rw [List.length_append, List.length_replicate, hlength,
        length_padded (by decide) (base.scaled_lt hx.representable.nonneg hhigh _)]
    · exact List.eq_of_mem_replicate hc ▸ base.isDigit_zero
    · rw [denoted_append, denoted_zeros, List.length_replicate, Nat.add_zero, hdenoted,
        denoted_padded]
  rw [fractionDigits_eq, ← hpadded, trimZeros_append_zeros]

/-! ## Both loops -/

/-- The loops end for every finite double, with the digits of the exact number. -/
theorem loopsWrite_iff (hbase : base ≠ .decimal) (hx : IsExact x r) :
    base.LoopsWrite x text ↔ text = base.render r := by
  have hwhole := isExact_truncate hx
  have hloop := wholeLoop_digits hbase hwhole
  have hfraction := fractionLoop_eq hbase (isExact_rest hx) (sub_floor_lt_one r)
  have hdigits : (if r.floor.toNat = 0 then [] else base.digitsOf r.floor.toNat) ++
      (if value (truncate x) < 1 then ['0'] else []) = base.digitsOf r.floor.toNat := by
    rw [hwhole.value]
    by_cases hzero : r.floor.toNat = 0
    · rw [hzero, if_pos rfl, if_pos (by norm_num)]
      exact (digitsOf_of_lt base.radix_pos).symm
    · have hmore : ¬((r.floor.toNat : Rat) < 1) := by
        rw [Nat.cast_lt_one]
        exact hzero
      rw [if_neg hzero, if_neg hmore, List.append_nil]
  rw [render_eq, ← hfraction, ← hdigits]
  constructor
  · rintro ⟨digits, hrun, htext⟩
    rw [htext, hrun.unique hloop]
  · intro htext
    exact ⟨_, hloop, htext⟩

end MatrixCalculator.Base
