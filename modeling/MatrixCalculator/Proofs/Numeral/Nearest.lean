import MatrixCalculator.Numeral.Shortest
import MatrixCalculator.Proofs.Numeral.Bits

/-!
# Rounding to doubles

A magnitude that lies on the grid of a double is rounded to its own bit pattern,
so a finite double is the one that is nearest to its exact value.  A decimal
beyond the cut-off exponents is rounded to the double that the cut-off gives it,
so what a decimal denotes depends on its exact value alone.
-/

namespace MatrixCalculator.Numeral

variable {r : Rat}

/-! ## The binary logarithm -/

theorem two_zpow_pos (k : Int) : (0 : Rat) < 2 ^ k := zpow_pos two_pos k

theorem exists_estimate (hr : 0 < r) :
    (2 : Rat) ^ ((r.num.natAbs.log2 : Int) - r.den.log2 - 1) ≤ r ∧
      r < (2 : Rat) ^ ((r.num.natAbs.log2 : Int) - r.den.log2 + 1) := by
  have hnum : r.num.natAbs ≠ 0 := by
    have := Rat.num_pos.2 hr
    omega
  have hden : r.den ≠ 0 := r.den_nz
  have hvalue : r = (r.num.natAbs : Rat) / r.den := by
    conv_lhs => rw [← Rat.num_div_den r]
    rw [Nat.cast_natAbs, abs_of_pos (Rat.num_pos.2 hr)]
  have hnumLow : (2 : Rat) ^ r.num.natAbs.log2 ≤ r.num.natAbs := by
    exact_mod_cast Nat.log2_self_le hnum
  have hnumHigh : (r.num.natAbs : Rat) < 2 ^ (r.num.natAbs.log2 + 1) := by
    exact_mod_cast Nat.lt_log2_self
  have hdenLow : (2 : Rat) ^ r.den.log2 ≤ r.den := by exact_mod_cast Nat.log2_self_le hden
  have hdenHigh : (r.den : Rat) < 2 ^ (r.den.log2 + 1) := by exact_mod_cast Nat.lt_log2_self
  have hdenPos : (0 : Rat) < r.den := by exact_mod_cast Nat.pos_of_ne_zero hden
  constructor
  · conv_rhs => rw [hvalue]
    rw [le_div_iff₀ hdenPos]
    calc (2 : Rat) ^ ((r.num.natAbs.log2 : Int) - r.den.log2 - 1) * r.den
        ≤ 2 ^ ((r.num.natAbs.log2 : Int) - r.den.log2 - 1) * 2 ^ (r.den.log2 + 1) :=
          mul_le_mul_of_nonneg_left hdenHigh.le (two_zpow_pos _).le
      _ = 2 ^ r.num.natAbs.log2 := by
          rw [← zpow_natCast, ← zpow_natCast, ← zpow_add₀ two_ne_zero]
          congr 1
          push_cast
          ring
      _ ≤ r.num.natAbs := hnumLow
  · conv_lhs => rw [hvalue]
    rw [div_lt_iff₀ hdenPos]
    calc (r.num.natAbs : Rat) < 2 ^ (r.num.natAbs.log2 + 1) := hnumHigh
      _ = 2 ^ ((r.num.natAbs.log2 : Int) - r.den.log2 + 1) * 2 ^ r.den.log2 := by
          rw [← zpow_natCast, ← zpow_natCast, ← zpow_add₀ two_ne_zero]
          congr 1
          push_cast
          ring
      _ ≤ 2 ^ ((r.num.natAbs.log2 : Int) - r.den.log2 + 1) * r.den :=
          mul_le_mul_of_nonneg_left hdenLow (two_zpow_pos _).le

theorem two_zpow_floorLog2_le (hr : 0 < r) : (2 : Rat) ^ floorLog2 r ≤ r := by
  obtain ⟨hlow, -⟩ := exists_estimate hr
  rw [floorLog2]
  split
  · exact hlow
  · next hge => exact not_lt.1 hge

theorem lt_two_zpow_floorLog2 (hr : 0 < r) : r < (2 : Rat) ^ (floorLog2 r + 1) := by
  obtain ⟨-, hhigh⟩ := exists_estimate hr
  rw [floorLog2]
  split
  · next hlt => rwa [sub_add_cancel]
  · exact hhigh

theorem floorLog2_lt {k : Int} (hr : 0 < r) (hlt : r < (2 : Rat) ^ k) : floorLog2 r < k := by
  have hpow := (two_zpow_floorLog2_le hr).trans_lt hlt
  exact (zpow_lt_zpow_iff_right₀ one_lt_two).1 hpow

theorem le_floorLog2 {k : Int} (hle : (2 : Rat) ^ k ≤ r) : k ≤ floorLog2 r := by
  have hpow := hle.trans_lt (lt_two_zpow_floorLog2 ((two_zpow_pos k).trans_le hle))
  have := (zpow_lt_zpow_iff_right₀ (show (1 : Rat) < 2 from one_lt_two)).1 hpow
  omega

theorem floorLog2_eq {k : Int} (hle : (2 : Rat) ^ k ≤ r) (hlt : r < (2 : Rat) ^ (k + 1)) :
    floorLog2 r = k := by
  have hlow := le_floorLog2 hle
  have hhigh := floorLog2_lt ((two_zpow_pos k).trans_le hle) hlt
  omega

/-! ## Rounding to whole numbers -/

theorem roundHalfEven_natCast (n : Nat) : roundHalfEven (n : Rat) = n := by
  have hfloor : (n : Rat).floor = n := Rat.floor_intCast n
  have hrest : (n : Rat) - ((n : Int) : Rat) = 0 := by simp
  simp only [roundHalfEven, hfloor, hrest]
  norm_num

theorem floor_le_roundHalfEven (r : Rat) : r.floor ≤ roundHalfEven r := by
  simp only [roundHalfEven]
  split <;> omega

theorem roundHalfEven_of_lt_half (hr : 0 ≤ r) (hlt : r < 1 / 2) : roundHalfEven r = 0 := by
  have hlow : 0 ≤ r.floor := Rat.le_floor_iff.2 (by exact_mod_cast hr)
  have hhigh : r.floor < 1 := Rat.floor_lt_iff.2 (hlt.trans (by norm_num))
  have hfloor : r.floor = 0 := by omega
  have hrest : r - ((0 : Int) : Rat) = r := by simp
  simp only [roundHalfEven, hfloor, hrest]
  rw [if_neg]
  rintro (hgt | ⟨heq, -⟩)
  · exact hgt.not_gt hlt
  · exact hlt.ne heq

/-! ## Magnitudes on a grid -/

/-- A significand that is full, unless its grid is the finest one. -/
structure OnGrid (units : Nat) (grid : Int) : Prop where
  finest_le : finestGrid ≤ grid
  lt : units < 2 * binade
  full : binade ≤ units ∨ grid = finestGrid

theorem gridFor_eq {units : Nat} {grid : Int} (hgrid : OnGrid units grid) (hunits : 0 < units) :
    gridFor (units * (2 : Rat) ^ grid) = grid := by
  have hpow : ∀ count : Nat, (2 : Rat) ^ (grid + count) = (2 ^ count : Nat) * 2 ^ grid := by
    intro count
    rw [zpow_add₀ two_ne_zero, zpow_natCast, mul_comm]
    norm_cast
  have hpos : (0 : Rat) < units * (2 : Rat) ^ grid :=
    mul_pos (Nat.cast_pos.2 hunits) (two_zpow_pos grid)
  have hbelow : ∀ count : Nat, units < 2 ^ count →
      units * (2 : Rat) ^ grid < 2 ^ (grid + count) := by
    intro count hlt
    rw [hpow]
    exact mul_lt_mul_of_pos_right (Nat.cast_lt.2 hlt) (two_zpow_pos grid)
  have hle := hgrid.finest_le
  have hlt := hgrid.lt
  rw [gridFor]
  rcases hgrid.full with hfull | hfinest
  · have hlog : floorLog2 (units * (2 : Rat) ^ grid) = grid + (52 : Nat) := by
      refine floorLog2_eq ?_ ?_
      · rw [hpow]
        exact mul_le_mul_of_nonneg_right (Nat.cast_le.2 hfull) (two_zpow_pos grid).le
      · rw [add_assoc]
        exact hbelow 53 (hlt.trans_le (by decide))
    rw [hlog]
    omega
  · have hlog := floorLog2_lt hpos (hbelow 53 (hlt.trans_le (by decide)))
    rw [hfinest] at hlog ⊢
    omega

theorem nearestBits_eq {units : Nat} {grid : Int} (hgrid : OnGrid units grid)
    (hunits : 0 < units) :
    nearestBits (units * (2 : Rat) ^ grid) =
      min (units + (grid - finestGrid).toNat * binade) infinityBits := by
  have hpow := two_zpow_pos grid
  have hpos : ¬units * (2 : Rat) ^ grid ≤ 0 :=
    not_le.2 (mul_pos (Nat.cast_pos.2 hunits) hpow)
  rw [nearestBits, if_neg hpos, gridFor_eq hgrid hunits]
  simp only [mul_div_cancel_right₀ (units : Rat) hpow.ne', roundHalfEven_natCast, Int.toNat_natCast]

theorem nearestBits_zero : nearestBits 0 = 0 := if_pos le_rfl

theorem nearestBits_le (r : Rat) : nearestBits r ≤ infinityBits := by
  rw [nearestBits]
  split
  · exact Nat.zero_le _
  · exact min_le_right _ _

/-- Every rational is close to a number. -/
theorem not_isNaN_nearest (r : Rat) : (nearest r).isNaN = false := by
  rw [← Bool.not_eq_true, isNaN_iff, not_lt, nearest]
  split
  · rw [magnitudeBits_neg, magnitudeBits_ofBits (nearestBits_le _)]
    exact nearestBits_le _
  · rw [magnitudeBits_ofBits (nearestBits_le _)]
    exact nearestBits_le _

theorem isNegative_nearest (hr : 0 ≤ r) : isNegative (nearest r) = false := by
  rw [nearest, if_neg (not_lt.2 hr), isNegative_ofBits (nearestBits_le r)]

theorem onGrid (x : Float) : OnGrid (significand x) (gridOf x) := by
  rw [significand, gridOf]
  split
  · next hsmall =>
    refine ⟨le_rfl, ?_, .inr rfl⟩
    rw [binade] at hsmall ⊢
    omega
  · next hlarge =>
    rw [binade] at hlarge
    refine ⟨?_, ?_, .inl ?_⟩
    · rw [binade]
      omega
    · rw [binade]
      omega
    · rw [binade]
      omega

/-- A finite double is the nearest one to its exact magnitude. -/
theorem nearestBits_magnitude {x : Float} (hx : x.isFinite = true) :
    nearestBits (magnitude x) = magnitudeBits x := by
  have hbound := (isFinite_iff x).1 hx
  by_cases hzero : significand x = 0
  · have hbits : magnitudeBits x = 0 := by
      rw [significand, binade] at hzero
      split at hzero <;> omega
    rw [magnitude, hzero, Nat.cast_zero, zero_mul, nearestBits_zero, hbits]
  · rw [magnitude, nearestBits_eq (onGrid x) (Nat.pos_of_ne_zero hzero)]
    have hbits : significand x + (gridOf x - finestGrid).toNat * binade = magnitudeBits x := by
      rw [significand, gridOf]
      split
      · rw [Int.sub_self]
        simp
      · next hlarge =>
        have hgrid : (((magnitudeBits x / binade : Nat) : Int) - 1 + finestGrid -
            finestGrid).toNat = magnitudeBits x / binade - 1 := by omega
        rw [hgrid]
        rw [binade] at hlarge ⊢
        omega
    rw [hbits]
    omega

theorem magnitude_nonneg (x : Float) : 0 ≤ magnitude x :=
  mul_nonneg (Nat.cast_nonneg _) (two_zpow_pos _).le

theorem magnitude_neg (x : Float) : magnitude (-x) = magnitude x := by
  rw [magnitude, significand, gridOf, magnitudeBits_neg]
  rfl

theorem magnitude_abs (x : Float) : magnitude x.abs = magnitude x := by
  rw [magnitude, significand, gridOf, magnitudeBits_abs]
  rfl

theorem nearest_magnitude {x : Float} (hx : x.isFinite = true) :
    nearest (magnitude x) = x.abs := by
  have hbound := ((isFinite_iff x).1 hx).le
  rw [nearest, if_neg (not_lt.2 (magnitude_nonneg x)), nearestBits_magnitude hx]
  apply eq_of_magnitudeBits_eq
  · rw [isNegative_ofBits hbound, isNegative_abs]
  · rw [magnitudeBits_ofBits hbound, magnitudeBits_abs]

theorem nearest_of_neg (hr : r < 0) : nearest r = -nearest (-r) := by
  rw [nearest, nearest, if_pos hr, if_neg (not_lt.2 (neg_nonneg.2 hr.le))]

/-! ## Cut-off exponents -/

/-- Everything from the first power of two beyond the finite doubles on is infinite. -/
theorem nearest_of_two_zpow_le (hle : (2 : Rat) ^ (1024 : Int) ≤ r) : nearest r = infinity := by
  have hpos : 0 < r := (two_zpow_pos 1024).trans_le hle
  have hlog := le_floorLog2 hle
  have hgrid : gridFor r = floorLog2 r - 52 := by
    rw [gridFor, finestGrid]
    omega
  have hunits : (binade : Int) ≤ roundHalfEven (r / (2 : Rat) ^ gridFor r) := by
    refine le_trans ?_ (floor_le_roundHalfEven _)
    rw [Rat.le_floor_iff, le_div_iff₀ (two_zpow_pos _)]
    calc (((binade : Nat) : Int) : Rat) * 2 ^ gridFor r = 2 ^ (52 : Int) * 2 ^ gridFor r := by
          rw [binade]
          norm_num
      _ = 2 ^ floorLog2 r := by
          rw [← zpow_add₀ two_ne_zero, hgrid]
          congr 1
          omega
      _ ≤ r := two_zpow_floorLog2_le hpos
  have hbits : nearestBits r = infinityBits := by
    simp only [nearestBits, if_neg (not_le.2 hpos)]
    refine Nat.min_eq_right ?_
    have hsteps : 2046 ≤ (gridFor r - finestGrid).toNat := by
      rw [hgrid, finestGrid]
      omega
    have hcarry := Nat.mul_le_mul_right binade hsteps
    rw [infinityBits]
    rw [binade] at hunits hcarry ⊢
    omega
  rw [nearest, if_neg (not_lt.2 hpos.le), hbits]
  rfl

/-- Everything far below the least double is zero. -/
theorem nearest_of_lt_two_zpow (hr : 0 ≤ r) (hlt : r < (2 : Rat) ^ (-1076 : Int)) :
    nearest r = 0 := by
  have hbits : nearestBits r = 0 := by
    by_cases hzero : r ≤ 0
    · exact if_pos hzero
    · have hlog := floorLog2_lt (not_le.1 hzero) hlt
      have hgrid : gridFor r = finestGrid := by
        rw [gridFor, finestGrid]
        omega
      have hunits : roundHalfEven (r / (2 : Rat) ^ finestGrid) = 0 := by
        refine roundHalfEven_of_lt_half (div_nonneg hr (two_zpow_pos _).le) ?_
        rw [div_lt_iff₀ (two_zpow_pos _)]
        refine hlt.trans_le (le_of_lt ?_)
        rw [finestGrid, show (-1076 : Int) = -2 + -1074 by norm_num, zpow_add₀ two_ne_zero]
        exact mul_lt_mul_of_pos_right (by norm_num) (two_zpow_pos _)
      simp only [nearestBits, if_neg hzero, hgrid, hunits]
      decide
  rw [nearest, if_neg (not_lt.2 hr), hbits]
  decide

theorem ten_zpow_pos (k : Int) : (0 : Rat) < 10 ^ k := zpow_pos (by norm_num) k

/-- A power of ten against the power of two with three times the exponent. -/
theorem two_pow_le_ten_pow (n : Nat) : (2 : Rat) ^ (3 * n) ≤ 10 ^ n := by
  rw [pow_mul]
  exact pow_le_pow_left₀ (by norm_num) (by norm_num) n

theorem Decimal.toRat_nonneg (d : Decimal) : 0 ≤ d.toRat :=
  mul_nonneg (Nat.cast_nonneg _) (ten_zpow_pos _).le

/-- What a decimal denotes is the double that is nearest to its exact value. -/
theorem Decimal.toDouble_eq_nearest (d : Decimal) : d.toDouble = nearest d.toRat := by
  obtain ⟨coefficient, exponent⟩ := d
  by_cases hzero : coefficient = 0
  · subst hzero
    have hrat : (⟨0, exponent⟩ : Decimal).toRat = 0 := by simp [toRat]
    rw [hrat, nearest_of_lt_two_zpow le_rfl (two_zpow_pos _), toDouble, if_pos rfl]
  rw [toDouble, if_neg hzero]
  by_cases hlarge : 400 < exponent
  · rw [if_pos hlarge]
    obtain ⟨n, rfl⟩ := Int.eq_ofNat_of_zero_le (show 0 ≤ exponent by omega)
    refine (nearest_of_two_zpow_le ?_).symm
    have hcoefficient : (1 : Rat) ≤ coefficient := by
      exact_mod_cast Nat.one_le_iff_ne_zero.2 hzero
    calc (2 : Rat) ^ (1024 : Int) ≤ 2 ^ (3 * n) := by
          rw [← zpow_natCast]
          exact zpow_le_zpow_right₀ one_le_two (by push_cast; omega)
      _ ≤ 10 ^ n := two_pow_le_ten_pow n
      _ ≤ coefficient * 10 ^ n := le_mul_of_one_le_left (by positivity) hcoefficient
      _ = toRat ⟨coefficient, n⟩ := by rw [toRat, zpow_natCast]
  rw [if_neg hlarge]
  by_cases hsmall : exponent + coefficient.log2 < -400
  · rw [if_pos hsmall]
    obtain ⟨n, rfl⟩ := Int.exists_eq_neg_ofNat (show exponent ≤ 0 by omega)
    refine (nearest_of_lt_two_zpow (toRat_nonneg _) ?_).symm
    have hcoefficient : (coefficient : Rat) < 2 ^ (coefficient.log2 + 1) := by
      exact_mod_cast Nat.lt_log2_self
    have hpow : ((10 : Rat) ^ n)⁻¹ ≤ (2 ^ (3 * n))⁻¹ :=
      inv_anti₀ (by positivity) (two_pow_le_ten_pow n)
    calc toRat ⟨coefficient, -n⟩ = coefficient * (10 ^ n)⁻¹ := by
          rw [toRat, zpow_neg, zpow_natCast]
      _ < 2 ^ (coefficient.log2 + 1) * (10 ^ n)⁻¹ :=
          mul_lt_mul_of_pos_right hcoefficient (by positivity)
      _ ≤ 2 ^ (coefficient.log2 + 1) * (2 ^ (3 * n))⁻¹ :=
          mul_le_mul_of_nonneg_left hpow (by positivity)
      _ = 2 ^ ((coefficient.log2 : Int) + 1 - 3 * n) := by
          rw [zpow_sub₀ two_ne_zero, div_eq_mul_inv]
          norm_cast
      _ ≤ 2 ^ (-1076 : Int) := zpow_le_zpow_right₀ one_le_two (by omega)
  · rw [if_neg hsmall]

end MatrixCalculator.Numeral
