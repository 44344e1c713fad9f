import MatrixCalculator.Proofs.Numeral.Arithmetic
import MatrixCalculator.Proofs.Numeral.Written

/-!
# Comparing doubles

Doubles are compared by sign, exponent and significand.  A grid is coarser than the finest
one only under a full significand, so this is the order of the exact values.
-/

namespace MatrixCalculator.Numeral

open Float.Model Float.Model.UnpackedFloat

variable {x y : Float} {r s : Rat} {units units' : Nat} {grid grid' : Int}

/-- What lies on a coarser grid is greater. -/
theorem OnGrid.lt_of_grid_lt (hunits : OnGrid units grid) (hunits' : OnGrid units' grid')
    (hlt : grid < grid') : (units : Rat) * 2 ^ grid < units' * 2 ^ grid' := by
  have hfull : binade ≤ units' := by
    rcases hunits'.full with hfull | hfinest
    · exact hfull
    · have := hunits.finest_le
      omega
  calc (units : Rat) * 2 ^ grid < (2 * binade : Nat) * 2 ^ grid :=
        mul_lt_mul_of_pos_right (by exact_mod_cast hunits.lt) (two_zpow_pos grid)
    _ = binade * 2 ^ (grid + 1) := by
        rw [zpow_add_one₀ two_ne_zero]
        push_cast
        ring
    _ ≤ units' * 2 ^ grid' :=
        mul_le_mul (by exact_mod_cast hfull) (zpow_le_zpow_right₀ one_le_two hlt)
          (two_zpow_pos _).le (Nat.cast_nonneg _)

/-- Grids are compared first, then units; magnitudes are compared in the same way. -/
theorem OnGrid.compare_eq (hunits : OnGrid units grid) (hunits' : OnGrid units' grid') :
    (compare grid grid').then (compare units units') =
      compare ((units : Rat) * 2 ^ grid) (units' * 2 ^ grid') := by
  rcases lt_trichotomy grid grid' with hlt | rfl | hgt
  · rw [compare_lt_iff_lt.2 hlt, compare_lt_iff_lt.2 (hunits.lt_of_grid_lt hunits' hlt)]
    rfl
  · have hscaled : StrictMono fun units : Nat => (units : Rat) * 2 ^ grid := fun _ _ hlt =>
      mul_lt_mul_of_pos_right (Nat.cast_lt.2 hlt) (two_zpow_pos grid)
    rw [compare_eq_iff_eq.2 rfl]
    rcases lt_trichotomy units units' with hlt | rfl | hgt
    · rw [compare_lt_iff_lt.2 hlt, compare_lt_iff_lt.2 (hscaled hlt)]
      rfl
    · rw [compare_eq_iff_eq.2 rfl, compare_eq_iff_eq.2 rfl]
      rfl
    · rw [compare_gt_iff_gt.2 hgt, compare_gt_iff_gt.2 (hscaled hgt)]
      rfl
  · rw [compare_gt_iff_gt.2 hgt, compare_gt_iff_gt.2 (hunits'.lt_of_grid_lt hunits hgt)]
    rfl

theorem compare_neg (r s : Rat) : compare (-r) (-s) = (compare r s).swap := by
  rcases lt_trichotomy r s with hlt | rfl | hgt
  · rw [compare_lt_iff_lt.2 hlt, compare_gt_iff_gt.2 (neg_lt_neg hlt)]
    rfl
  · rw [compare_eq_iff_eq.2 rfl, compare_eq_iff_eq.2 rfl]
    rfl
  · rw [compare_gt_iff_gt.2 hgt, compare_lt_iff_lt.2 (neg_lt_neg hgt)]
    rfl

theorem dyadic_positive (units : Nat) (grid : Int) :
    dyadic .positive units grid = units * 2 ^ grid := rfl

theorem dyadic_negative (units : Nat) (grid : Int) :
    dyadic .negative units grid = -(units * 2 ^ grid) := by
  rw [dyadic, Sign.apply, Int.cast_neg, Int.cast_natCast, neg_mul]

/-- Finite doubles are compared as their exact values are. -/
theorem compare_unpack (hx : x.isFinite = true) (hy : y.isFinite = true) :
    x.toModel.unpack.compare y.toModel.unpack = some (compare (value x) (value y)) := by
  have hcompare := (onGrid x).compare_eq (onGrid y)
  have hunits : 0 < significand x → (0 : Rat) < significand x * 2 ^ gridOf x := fun hpos =>
    mul_pos (Nat.cast_pos.2 hpos) (two_zpow_pos _)
  have hunits' : 0 < significand y → (0 : Rat) < significand y * 2 ^ gridOf y := fun hpos =>
    mul_pos (Nat.cast_pos.2 hpos) (two_zpow_pos _)
  have hform := unpacks hx
  have hform' := unpacks hy
  generalize x.toModel.unpack = form at hform ⊢
  generalize y.toModel.unpack = form' at hform' ⊢
  cases hform with
  | zero sign hzero =>
    rw [value_of_significand_eq_zero hzero]
    cases hform' with
    | zero sign' hzero' =>
      rw [value_of_significand_eq_zero hzero', compare_eq_iff_eq.2 rfl]
      rfl
    | finite sign' hpos' hsign' =>
      rw [value_eq_dyadic hsign']
      cases sign' with
      | positive =>
        rw [dyadic_positive, compare_lt_iff_lt.2 (hunits' hpos')]
        rfl
      | negative =>
        rw [dyadic_negative, compare_gt_iff_gt.2 (neg_lt_zero.2 (hunits' hpos'))]
        rfl
  | finite sign hpos hsign =>
    rw [value_eq_dyadic hsign]
    cases hform' with
    | zero sign' hzero' =>
      rw [value_of_significand_eq_zero hzero']
      cases sign with
      | positive =>
        rw [dyadic_positive, compare_gt_iff_gt.2 (hunits hpos)]
        rfl
      | negative =>
        rw [dyadic_negative, compare_lt_iff_lt.2 (neg_lt_zero.2 (hunits hpos))]
        rfl
    | finite sign' hpos' hsign' =>
      rw [value_eq_dyadic hsign']
      cases sign with
      | positive =>
        cases sign' with
        | positive => exact congrArg some hcompare
        | negative =>
          rw [dyadic_positive, dyadic_negative, compare_gt_iff_gt.2
            ((neg_lt_zero.2 (hunits' hpos')).trans (hunits hpos))]
          rfl
      | negative =>
        cases sign' with
        | positive =>
          rw [dyadic_positive, dyadic_negative, compare_lt_iff_lt.2
            ((neg_lt_zero.2 (hunits hpos)).trans (hunits' hpos'))]
          rfl
        | negative =>
          rw [dyadic_negative, dyadic_negative, compare_neg]
          exact congrArg (fun order => some order.swap) hcompare

/-- Comparing finite doubles is comparing their exact values. -/
theorem HasValue.lt_iff (hx : HasValue x r) (hy : HasValue y s) : x < y ↔ r < s := by
  have hless : x < y ↔ x.toModel.unpack.compare y.toModel.unpack = some .lt := by
    change decide (UnpackedFloat.lt x.toModel.unpack y.toModel.unpack = true) = true ↔ _
    rw [decide_eq_true_iff, UnpackedFloat.lt, beq_iff_eq]
  rw [hless, compare_unpack hx.isFinite hy.isFinite, Option.some_inj, compare_lt_iff_lt, hx.value,
    hy.value]

theorem HasValue.not_lt_zero (hx : HasValue x r) (hr : 0 ≤ r) : ¬x < 0 := by
  rw [hx.lt_iff isExact_zero.hasValue]
  exact hr.not_gt

/-! ## Whole doubles -/

theorem HasValue.magnitude {n : Nat} (hx : HasValue x n) : magnitude x = n := by
  rw [magnitude_eq_abs_value, hx.value, Nat.abs_cast]

theorem HasValue.isWhole {n : Nat} (hx : HasValue x n) : isWhole x = true := by
  simp [Numeral.isWhole, hx.isFinite, hx.magnitude]

/-- The word of a double is its value, up to the largest word. -/
theorem HasValue.toWord {n : Nat} (hx : HasValue x n) : toWord x = min n (wordCount - 1) := by
  rw [Numeral.toWord, hx.magnitude, floor_natCast, Int.toNat_natCast]

/-- The whole doubles that are not negative are those with the value of a natural number. -/
theorem exists_hasValue_iff : (∃ n : Nat, HasValue x n) ↔ ¬x < 0 ∧ isWhole x = true := by
  constructor
  · rintro ⟨n, hx⟩
    exact ⟨hx.not_lt_zero (Nat.cast_nonneg n), hx.isWhole⟩
  · rintro ⟨hpositive, hwhole⟩
    rw [Numeral.isWhole, Bool.and_eq_true, beq_iff_eq] at hwhole
    obtain ⟨hfinite, hden⟩ := hwhole
    have hx : HasValue x (value x) := ⟨hfinite, rfl⟩
    rw [hx.lt_iff isExact_zero.hasValue, not_lt] at hpositive
    obtain ⟨n, hn⟩ := Int.eq_ofNat_of_zero_le (Rat.num_nonneg.2 (magnitude_nonneg x))
    refine ⟨n, hfinite, ?_⟩
    rw [← abs_of_nonneg hpositive, ← magnitude_eq_abs_value, ← (Rat.den_eq_one_iff _).1 hden, hn]
    rfl

/-! ## Noise -/

theorem snapBound_pos : 0 < value snapBound := by decide +kernel

/-- Which numbers are noise is decided by their exact magnitudes. -/
theorem abs_lt_snapBound_iff (hx : x.isFinite = true) :
    x.abs < snapBound ↔ magnitude x < value snapBound := by
  have habs : IsExact x.abs (magnitude x) := ⟨isFinite_abs hx, isNegative_abs x, magnitude_abs x⟩
  have hbound : HasValue snapBound (value snapBound) := ⟨by decide, rfl⟩
  exact habs.hasValue.lt_iff hbound

/-- Numbers that are no noise are shown as they are. -/
theorem shown_eq_self (hx : x.isFinite = true) (hlarge : value snapBound ≤ magnitude x) :
    shown x = x := by
  rw [shown, if_neg]
  rw [abs_lt_snapBound_iff hx]
  exact hlarge.not_gt

/-- A number is shown with a sign if it is negative and no noise. -/
theorem isNegative_shown_iff (hx : x.isFinite = true) :
    isNegative (shown x) = true ↔ value x < 0 ∧ value snapBound ≤ magnitude x := by
  rw [shown]
  split
  · next hsmall =>
    have hzero : isNegative 0 = false := by decide
    rw [abs_lt_snapBound_iff hx] at hsmall
    simp [hzero, hsmall]
  · next hlarge =>
    rw [abs_lt_snapBound_iff hx, not_lt] at hlarge
    have hpos : 0 < magnitude x := snapBound_pos.trans_le hlarge
    rw [value]
    cases isNegative x with
    | true => simp [hpos, hlarge]
    | false => simp [hpos.le]

end MatrixCalculator.Numeral
