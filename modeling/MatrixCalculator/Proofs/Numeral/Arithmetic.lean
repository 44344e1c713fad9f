import MatrixCalculator.Numeral.MulAdd
import MatrixCalculator.Proofs.Numeral.Exact

/-!
# Sums and products without rounding

A sum or a product of doubles is the exact one, rounded to a double.  Where the exact one
is representable nothing is rounded off, so a computation of such steps has the value that
it has over the rationals.  The sign of a zero is all that is left open.
-/

namespace MatrixCalculator.Numeral

open Float.Model Float.Model.UnpackedFloat

variable {x y : Float} {r s t : Rat} {units : Nat} {grid : Int} {sign : Sign}

/-- A finite double with its exact value. -/
structure HasValue (x : Float) (r : Rat) : Prop where
  isFinite : x.isFinite = true
  value : Numeral.value x = r

/-! ## Unpacked doubles -/

/-- The number with a sign and a magnitude on a grid. -/
def dyadic (sign : Sign) (units : Nat) (grid : Int) : Rat :=
  (sign.apply units : Int) * (2 : Rat) ^ grid

theorem dyadic_congr {units' : Nat} {grid' : Int}
    (h : (units : Rat) * 2 ^ grid = units' * 2 ^ grid') (sign : Sign) :
    dyadic sign units grid = dyadic sign units' grid' := by
  cases sign with
  | positive => simpa [dyadic, Sign.apply] using h
  | negative => simpa [dyadic, Sign.apply] using h

theorem value_of_significand_eq_zero (hzero : significand x = 0) : value x = 0 := by
  simp [value, magnitude, hzero]

theorem value_eq_dyadic (hsign : isNegative x = true ↔ sign = .negative) :
    value x = dyadic sign (significand x) (gridOf x) := by
  cases sign with
  | negative => simp [value, hsign, magnitude, dyadic, Sign.apply]
  | positive => simp [value, hsign, magnitude, dyadic, Sign.apply]

/-- How a finite double is unpacked. -/
inductive Unpacks (x : Float) : UnpackedFloat → Prop
  | zero (sign : Sign) (hzero : significand x = 0) : Unpacks x (.zero sign)
  | finite (sign : Sign) (hpos : 0 < significand x)
      (hsign : isNegative x = true ↔ sign = .negative) :
      Unpacks x (.finite sign (significand x) (gridOf x) hpos)

theorem unpacks (hx : x.isFinite = true) : Unpacks x x.toModel.unpack := by
  have hfields := fields x
  generalize signField x.toBits.toBitVec = sign at hfields
  generalize exponentField x.toBits.toBitVec = exponent at hfields
  generalize fractionField x.toBits.toBitVec = fraction at hfields
  have hexponent := hfields.isFinite_iff.1 hx
  have hbits := hfields.magnitudeBits_eq
  have hfraction := fraction.isLt
  have hdiv : magnitudeBits x / binade = exponent.toNat := by
    rw [hbits, binade]
    omega
  have hmod : magnitudeBits x % binade = fraction.toNat := by
    rw [hbits, binade]
    omega
  rw [hfields.unpack_eq, assemble, if_neg hexponent]
  split
  · next hzero =>
    have hsubnormal : significand x = fraction.toNat ∧ gridOf x = finestGrid := by
      rw [significand, gridOf, hdiv, hzero, ← hmod, Nat.mod_eq_of_lt]
      · exact ⟨rfl, rfl⟩
      · rw [hbits, hzero, binade]
        simpa using hfraction
    split
    · next hnone =>
      refine .zero sign ?_
      rw [hsubnormal.1, hnone]
      rfl
    · next hsome =>
      have hpos : 0 < significand x := by
        rw [hsubnormal.1]
        simpa [BitVec.toNat_pos, BitVec.pos_iff_ne_zero] using hsome
      have hfinite := Unpacks.finite sign hpos hfields.isNegative_iff
      simp only [hsubnormal] at hfinite
      rw [hzero]
      exact hfinite
  · next hnormal =>
    have hne : exponent.toNat ≠ 0 := fun h => hnormal (BitVec.eq_of_toNat_eq h)
    have hfull : significand x = (1#1 ++ fraction).toNat ∧
        gridOf x = (exponent.toNat : Int) - (1023 + 52) := by
      rw [significand, gridOf, hdiv, hmod, if_neg hne, if_neg hne, toNat_implicit, finestGrid,
        binade]
      omega
    have hpos : 0 < significand x := by
      rw [hfull.1, toNat_implicit]
      omega
    have hfinite := Unpacks.finite sign hpos hfields.isNegative_iff
    simp only [hfull] at hfinite
    exact hfinite

theorem unpack_eq_finite (hx : x.isFinite = true) (hpos : 0 < significand x)
    (hsign : isNegative x = true ↔ sign = .negative) :
    x.toModel.unpack = .finite sign (significand x) (gridOf x) hpos := by
  have hunpacks := unpacks hx
  generalize x.toModel.unpack = form at hunpacks ⊢
  cases hunpacks with
  | zero _ hzero => exact absurd hzero hpos.ne'
  | finite sign' _ hsign' =>
    have hsame : sign' = sign := by cases sign <;> cases sign' <;> simp_all
    rw [hsame]

/-- Nothing is lost by unpacking. -/
theorem ofModel_pack_unpack (x : Float) : Float.ofModel (pack x.toModel.unpack) = x :=
  Float.ofBits_toBits x

/-! ## Rounding a representable magnitude -/

/-- A magnitude is shifted to the grid on which it has a full significand. -/
theorem targetExponent_eq (hunits : 0 < units) (grid : Int) :
    Format.binary64.targetExponent (totalExponent units grid) = gridFor (units * 2 ^ grid) := by
  have hlow : (2 : Rat) ^ units.log2 ≤ units := by exact_mod_cast Nat.log2_self_le hunits.ne'
  have hhigh : (units : Rat) < 2 ^ (units.log2 + 1) := by exact_mod_cast Nat.lt_log2_self
  have hlog : floorLog2 (units * (2 : Rat) ^ grid) = units.log2 + grid := by
    refine floorLog2_eq ?_ ?_
    · rw [zpow_add₀ two_ne_zero, zpow_natCast]
      exact mul_le_mul_of_nonneg_right hlow (two_zpow_pos grid).le
    · rw [add_right_comm, zpow_add₀ two_ne_zero]
      exact mul_lt_mul_of_pos_right (by exact_mod_cast hhigh) (two_zpow_pos grid)
  rw [gridFor, hlog, finestGrid]
  change max ((units.log2 : Int) + 1 + grid - 53) (-1074) = _
  omega

/-- A shift by zeros drops nothing. -/
theorem shiftRight_exact (units steps : Nat) :
    ExtendedMantissa.ofMantissaAndAccuracy (units * 2 ^ steps) .exact >>> steps =
      .ofMantissaAndAccuracy units .exact := by
  change steps.repeat ExtendedMantissa.shiftRightOne _ = _
  induction steps generalizing units with
  | zero => simp [Nat.repeat]
  | succ steps ih =>
    rw [Nat.repeat, pow_succ', ← mul_assoc, ih]
    simp [ExtendedMantissa.shiftRightOne, ExtendedMantissa.ofMantissaAndAccuracy]

theorem shiftToTargetExponent_exact {steps : Nat} (hunits : 0 < units)
    (hgrid : OnGrid units (grid + steps)) :
    shiftToTargetExponent .binary64 (units * 2 ^ steps) grid .exact =
      (.ofMantissaAndAccuracy units .exact, grid + steps) := by
  have hvalue : ((units * 2 ^ steps : Nat) : Rat) * 2 ^ grid = units * 2 ^ (grid + steps) := by
    rw [zpow_add₀ two_ne_zero, zpow_natCast]
    push_cast
    ring
  have htarget := targetExponent_eq (Nat.mul_pos hunits (Nat.two_pow_pos steps)) grid
  rw [hvalue, gridFor_eq hgrid hunits] at htarget
  rw [shiftToTargetExponent, htarget, shiftToExponent, add_sub_cancel_left, Int.toNat_natCast,
    shiftRight_exact]

/-- A magnitude with a full significand on a coarser grid is rounded to just that. -/
theorem roundWithAccuracy_exact {steps : Nat} (hunits : 0 < units)
    (hgrid : OnGrid units (grid + steps)) (sign : Sign) :
    roundWithAccuracy .binary64 sign (units * 2 ^ steps) grid .exact =
      .finite sign units (grid + steps) hunits := by
  have hunshifted : OnGrid units (grid + steps + (0 : Nat)) := by simpa using hgrid
  have hagain := shiftToTargetExponent_exact hunits hunshifted
  rw [pow_zero, mul_one, Nat.cast_zero, add_zero] at hagain
  have hrounded : (ExtendedMantissa.ofMantissaAndAccuracy units .exact).roundedMantissa = units :=
    rfl
  have hmantissa : (ExtendedMantissa.ofMantissaAndAccuracy units .exact).mantissa = units := rfl
  simp only [roundWithAccuracy, shiftToTargetExponent_exact hunits hgrid, hrounded, hagain,
    hmantissa, dif_neg hunits.ne']

/-- A double with a given sign and a representable magnitude. -/
theorem Representable.exists_signed (hr : Representable r) (sign : Sign) :
    ∃ x : Float, x.isFinite = true ∧ magnitude x = r ∧
      (isNegative x = true ↔ sign = .negative) := by
  obtain ⟨x, hfinite, hsign, hmagnitude⟩ := hr.exists_double
  cases sign with
  | positive => exact ⟨x, hfinite, hmagnitude, by simp [hsign]⟩
  | negative =>
    refine ⟨-x, ?_, by rw [magnitude_neg, hmagnitude], ?_⟩
    · rwa [isFinite_iff, magnitudeBits_neg, ← isFinite_iff]
    · simp [isNegative_neg (Bool.eq_false_iff.1 (not_isNaN_of_isFinite hfinite)), hsign]

/-- A magnitude that is representable is rounded to the double that has it. -/
theorem hasValue_roundWithAccuracy (hunits : 0 < units)
    (hr : Representable (units * (2 : Rat) ^ grid))
    (hle : grid ≤ gridFor (units * (2 : Rat) ^ grid)) (sign : Sign) :
    HasValue (.ofModel (pack (roundWithAccuracy .binary64 sign units grid .exact)))
      (dyadic sign units grid) := by
  obtain ⟨x, hfinite, hmagnitude, hsign⟩ := hr.exists_signed sign
  have hpos : 0 < significand x := by
    refine Nat.pos_of_ne_zero fun hzero => ?_
    rw [magnitude, hzero, Nat.cast_zero, zero_mul] at hmagnitude
    exact (mul_pos (Nat.cast_pos.2 hunits) (two_zpow_pos grid)).ne hmagnitude
  -- on its own grid the magnitude is the significand of a double, so the units are that,
  -- shifted by the steps to the finer grid
  rw [← hmagnitude, magnitude, gridFor_eq (onGrid x) hpos] at hle
  obtain ⟨steps, hsteps⟩ := Int.le.dest hle
  have hshifted : units = significand x * 2 ^ steps := by
    rw [magnitude, ← hsteps, zpow_add₀ two_ne_zero, zpow_natCast, mul_comm ((2 : Rat) ^ grid),
      ← mul_assoc] at hmagnitude
    exact_mod_cast (mul_right_cancel₀ (two_zpow_pos grid).ne' hmagnitude).symm
  have hrounded := roundWithAccuracy_exact hpos (hsteps ▸ onGrid x) sign
  rw [← hshifted] at hrounded
  simp only [hsteps] at hrounded
  rw [hrounded, ← unpack_eq_finite hfinite hpos hsign, ofModel_pack_unpack]
  exact ⟨hfinite, (value_eq_dyadic hsign).trans (dyadic_congr hmagnitude sign)⟩

theorem hasValue_round (hunits : 0 < units) (hr : Representable (units * (2 : Rat) ^ grid))
    (sign : Sign) :
    HasValue (.ofModel (pack (round .binary64 sign units grid))) (dyadic sign units grid) := by
  have htarget := targetExponent_eq hunits grid
  generalize hsteps : (grid - Format.binary64.targetExponent (totalExponent units grid)).toNat =
    steps
  have hvalue : ((units <<< steps : Nat) : Rat) * 2 ^ (grid - steps) = units * 2 ^ grid := by
    rw [Nat.shiftLeft_eq, zpow_sub₀ two_ne_zero, zpow_natCast]
    push_cast
    field_simp
  have hpos : 0 < units <<< steps := by
    rw [Nat.shiftLeft_eq]
    exact Nat.mul_pos hunits (Nat.two_pow_pos steps)
  have hfiner : grid - steps ≤ gridFor ((units <<< steps : Nat) * (2 : Rat) ^ (grid - steps)) := by
    rw [hvalue, ← htarget]
    omega
  have hrounded := hasValue_roundWithAccuracy hpos (by rwa [hvalue]) hfiner sign
  rw [dyadic_congr hvalue] at hrounded
  simpa only [UnpackedFloat.round, decreaseExponent, hsteps] using hrounded

theorem hasValue_zero (sign : Sign) : HasValue (.ofModel (pack (.zero sign))) 0 := by
  cases sign with
  | positive => exact ⟨by decide, by decide +kernel⟩
  | negative => exact ⟨by decide, by decide +kernel⟩

theorem hasValue_normalize {n : Int} (hr : Representable |n * (2 : Rat) ^ grid|) (sign : Sign) :
    HasValue (.ofModel (pack (normalize .binary64 n grid sign))) (n * 2 ^ grid) := by
  rw [abs_mul, abs_of_pos (two_zpow_pos grid)] at hr
  rw [UnpackedFloat.normalize]
  rcases lt_trichotomy n 0 with hn | rfl | hn
  · obtain ⟨m, rfl⟩ := Int.exists_eq_neg_ofNat hn.le
    rw [show compare (-(m : Int)) 0 = .lt from Int.compare_eq_lt.2 hn]
    have hm : 0 < m := by omega
    have hm' : Representable (m * (2 : Rat) ^ grid) := by simpa using hr
    have hrounded := hasValue_round hm hm' .negative
    simpa [dyadic, Sign.apply] using hrounded
  · simpa using hasValue_zero sign
  · obtain ⟨m, rfl⟩ := Int.eq_ofNat_of_zero_le hn.le
    rw [show compare (m : Int) 0 = .gt from Int.compare_eq_gt.2 hn]
    have hm : 0 < m := by omega
    have hm' : Representable (m * (2 : Rat) ^ grid) := by simpa using hr
    have hrounded := hasValue_round hm hm' .positive
    simpa [dyadic, Sign.apply] using hrounded

/-! ## Operations -/

theorem apply_mul (sign sign' : Sign) (m n : Int) :
    (sign * sign').apply (m * n) = sign.apply m * sign'.apply n := by
  cases sign with
  | negative =>
    cases sign' with
    | negative => exact (neg_mul_neg m n).symm
    | positive => exact (neg_mul m n).symm
  | positive =>
    cases sign' with
    | negative => exact (mul_neg m n).symm
    | positive => rfl

theorem dyadic_mul (sign sign' : Sign) (units units' : Nat) (grid grid' : Int) :
    dyadic (sign * sign') (units * units') (grid + grid') =
      dyadic sign units grid * dyadic sign' units' grid' := by
  rw [dyadic, Nat.cast_mul, apply_mul, zpow_add₀ two_ne_zero, dyadic, dyadic]
  push_cast
  ring

theorem abs_dyadic (sign : Sign) (units : Nat) (grid : Int) :
    |dyadic sign units grid| = units * 2 ^ grid := by
  rw [dyadic, abs_mul, abs_of_pos (two_zpow_pos grid)]
  cases sign <;> simp [Sign.apply]

theorem le_gridFor (hgrid : binade ≤ units ∨ grid ≤ finestGrid) :
    grid ≤ gridFor (units * (2 : Rat) ^ grid) := by
  rw [gridFor]
  rcases hgrid with hfull | hfinest
  · have hlog : 52 + grid ≤ floorLog2 (units * (2 : Rat) ^ grid) := by
      refine le_floorLog2 ?_
      rw [zpow_add₀ two_ne_zero, ← binade_cast]
      exact mul_le_mul_of_nonneg_right (Nat.cast_le.2 hfull) (two_zpow_pos grid).le
    omega
  · exact hfinest.trans (le_max_right _ _)

/-- A product that is representable is formed exactly. -/
theorem HasValue.mul (hx : HasValue x r) (hy : HasValue y s) (hrs : Representable |r * s|) :
    HasValue (x * y) (r * s) := by
  change HasValue (.ofModel (pack (UnpackedFloat.mul _ x.toModel.unpack y.toModel.unpack))) _
  have hleft := Numeral.unpacks hx.isFinite
  have hright := Numeral.unpacks hy.isFinite
  obtain rfl := hx.value
  obtain rfl := hy.value
  generalize x.toModel.unpack = left at hleft ⊢
  generalize y.toModel.unpack = right at hright ⊢
  cases hleft with
  | zero sign hzero =>
    rw [value_of_significand_eq_zero hzero, zero_mul]
    cases hright with
    | zero sign' _ => exact hasValue_zero (sign * sign')
    | finite sign' _ _ => exact hasValue_zero (sign * sign')
  | finite sign hpos hsign =>
    cases hright with
    | zero sign' hzero =>
      rw [value_of_significand_eq_zero hzero, mul_zero]
      exact hasValue_zero (sign * sign')
    | finite sign' hpos' hsign' =>
      rw [value_eq_dyadic hsign, value_eq_dyadic hsign', ← dyadic_mul] at hrs ⊢
      rw [abs_dyadic] at hrs
      have hunits := Nat.mul_pos hpos hpos'
      refine hasValue_roundWithAccuracy hunits hrs (le_gridFor ?_) (sign * sign')
      rcases (onGrid x).full with hfull | hfinest
      · exact .inl (hfull.trans (Nat.le_mul_of_pos_right _ hpos'))
      · rcases (onGrid y).full with hfull' | hfinest'
        · exact .inl (hfull'.trans (Nat.le_mul_of_pos_left _ hpos))
        · rw [hfinest, hfinest']
          exact .inr (by decide)

theorem dyadic_decreaseExponent (sign : Sign) (units : Nat) {grid finer : Int}
    (hle : finer ≤ grid) :
    dyadic sign (decreaseExponent units grid finer).1 finer = dyadic sign units grid := by
  obtain ⟨steps, rfl⟩ := Int.le.dest hle
  refine dyadic_congr ?_ sign
  rw [decreaseExponent, add_sub_cancel_left, Int.toNat_natCast, Nat.shiftLeft_eq,
    zpow_add₀ two_ne_zero, zpow_natCast]
  push_cast
  ring

/-- A sum that is representable is formed exactly. -/
theorem HasValue.add (hx : HasValue x r) (hy : HasValue y s) (hrs : Representable |r + s|) :
    HasValue (x + y) (r + s) := by
  change HasValue (.ofModel (pack (UnpackedFloat.add _ x.toModel.unpack y.toModel.unpack))) _
  have hleft := Numeral.unpacks hx.isFinite
  have hright := Numeral.unpacks hy.isFinite
  obtain rfl := hx.value
  obtain rfl := hy.value
  generalize hxform : x.toModel.unpack = left at hleft ⊢
  generalize hyform : y.toModel.unpack = right at hright ⊢
  cases hleft with
  | zero sign hzero =>
    rw [value_of_significand_eq_zero hzero, zero_add]
    cases hright with
    | zero sign' hzero' =>
      rw [value_of_significand_eq_zero hzero', UnpackedFloat.add]
      split
      · exact hasValue_zero sign
      · exact hasValue_zero .positive
    | finite sign' hpos' _ =>
      rw [UnpackedFloat.add, ← hyform, ofModel_pack_unpack]
      · exact hy
      all_goals simp
  | finite sign hpos hsign =>
    cases hright with
    | zero sign' hzero =>
      rw [value_of_significand_eq_zero hzero, add_zero, UnpackedFloat.add, ← hxform,
        ofModel_pack_unpack]
      · exact hx
      all_goals simp
    | finite sign' hpos' hsign' =>
      have hsum := congrArg₂ (· + ·)
        (dyadic_decreaseExponent sign (significand x) (min_le_left (gridOf x) (gridOf y)))
        (dyadic_decreaseExponent sign' (significand y) (min_le_right (gridOf x) (gridOf y)))
      simp only [dyadic, ← add_mul, ← Int.cast_add] at hsum
      rw [value_eq_dyadic hsign, value_eq_dyadic hsign', dyadic, dyadic, ← hsum] at hrs ⊢
      exact hasValue_normalize hrs .positive

theorem IsExact.hasValue (hx : IsExact x r) : HasValue x r := ⟨hx.isFinite, hx.value⟩

theorem HasValue.neg (hx : HasValue x r) : HasValue (-x) (-r) := by
  have hnumber := Bool.eq_false_iff.1 (not_isNaN_of_isFinite hx.isFinite)
  refine ⟨?_, ?_⟩
  · rw [isFinite_iff, magnitudeBits_neg, ← isFinite_iff]
    exact hx.isFinite
  · rw [← hx.value, Numeral.value, Numeral.value, isNegative_neg hnumber, magnitude_neg]
    cases isNegative x <;> simp

theorem hasValue_nearest (hr : Representable |r|) : HasValue (nearest r) r := by
  by_cases hneg : r < 0
  · rw [abs_of_neg hneg] at hr
    have hopposite := hr.isExact.hasValue.neg
    rwa [neg_neg, ← nearest_of_neg hneg] at hopposite
  · rw [abs_of_nonneg (not_lt.1 hneg)] at hr
    exact hr.isExact.hasValue

theorem magnitude_eq_abs_value (x : Float) : magnitude x = |value x| := by
  rw [value]
  split
  · rw [abs_neg, abs_of_nonneg (magnitude_nonneg x)]
  · rw [abs_of_nonneg (magnitude_nonneg x)]

/-- A product that is added to a sum in one operation. -/
theorem HasValue.mulAdd {z : Float} (hx : HasValue x r) (hy : HasValue y s) (hz : HasValue z t)
    (hrs : Representable |r * s|) (hsum : Representable |t + r * s|) :
    HasValue (mulAdd x y z) (t + r * s) := by
  rw [Numeral.mulAdd, if_pos ⟨hx.isFinite, hy.isFinite⟩, if_pos hz.isFinite, hx.value, hy.value,
    hz.value]
  dsimp only
  split
  · exact hz.add (hx.mul hy hrs) hsum
  · rw [add_comm (r * s)]
    exact hasValue_nearest hsum

end MatrixCalculator.Numeral
