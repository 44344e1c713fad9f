import MatrixCalculator.Proofs.Numeral.Nearest

/-!
# Exact arithmetic

A magnitude is representable if it has a short significand on some binary grid.  Rounding
leaves it as it is.  Cutting a representable magnitude at any power of two, taking its
whole part and shifting it within the range all give representable magnitudes, so a
computation of such steps is exact.
-/

namespace MatrixCalculator.Numeral

variable {r : Rat} {x : Float}

/-- Whether a rational is the magnitude of a finite double: a whole number of units of a
binary grid, with no more bits than a significand has. -/
def Representable (r : Rat) : Prop :=
  ∃ (units : Nat) (grid : Int), finestGrid ≤ grid ∧ units < 2 * binade ∧
    units * (2 : Rat) ^ grid < 2 ^ (1024 : Int) ∧ r = units * 2 ^ grid

theorem Representable.nonneg (hr : Representable r) : 0 ≤ r := by
  obtain ⟨units, grid, -, -, -, rfl⟩ := hr
  exact mul_nonneg (Nat.cast_nonneg _) (two_zpow_pos _).le

theorem Representable.lt (hr : Representable r) : r < 2 ^ (1024 : Int) := by
  obtain ⟨units, grid, -, -, hlt, rfl⟩ := hr
  exact hlt

/-- All magnitudes are whole numbers of the finest units. -/
theorem Representable.exists_units (hr : Representable r) :
    ∃ units : Nat, r = units * 2 ^ finestGrid := by
  obtain ⟨units, grid, hfinest, -, -, rfl⟩ := hr
  obtain ⟨steps, rfl⟩ := Int.le.dest hfinest
  refine ⟨units * 2 ^ steps, ?_⟩
  rw [zpow_add₀ two_ne_zero, zpow_natCast]
  push_cast
  ring

/-! ## Finite doubles -/

theorem binade_cast : ((binade : Nat) : Rat) = 2 ^ (52 : Int) := by
  rw [binade]
  norm_num

theorem units_mul_lt {units : Nat} {grid : Int} (hunits : units < 2 * binade) (hgrid : grid ≤ 971) :
    units * (2 : Rat) ^ grid < 2 ^ (1024 : Int) := by
  have hcast : (units : Rat) < 2 * (binade : Nat) := by exact_mod_cast hunits
  calc units * (2 : Rat) ^ grid < 2 * (binade : Nat) * 2 ^ grid :=
        mul_lt_mul_of_pos_right hcast (two_zpow_pos grid)
    _ = 2 ^ (53 + grid) := by
        rw [binade_cast, zpow_add₀ two_ne_zero]
        norm_num
    _ ≤ 2 ^ (1024 : Int) := zpow_le_zpow_right₀ one_le_two (by omega)

theorem representable_magnitude (hx : x.isFinite = true) : Representable (magnitude x) := by
  have hgrid := onGrid x
  refine ⟨significand x, gridOf x, hgrid.finest_le, hgrid.lt, units_mul_lt hgrid.lt ?_, rfl⟩
  have hbound := (isFinite_iff x).1 hx
  rw [gridOf, finestGrid]
  split
  · decide
  · rw [infinityBits] at hbound
    rw [binade]
    omega

/-- The bit pattern of a full significand, from its place along the grids. -/
theorem significand_gridOf {units steps : Nat} (hunits : units < 2 * binade)
    (hfull : binade ≤ units ∨ steps = 0) (hx : magnitudeBits x = units + steps * binade) :
    significand x = units ∧ gridOf x = finestGrid + steps := by
  rw [significand, gridOf, hx]
  rw [binade] at *
  rcases hfull with hfull | rfl
  · have hdiv : (units + steps * 0x10000000000000) / 0x10000000000000 = steps + 1 := by omega
    rw [hdiv, if_neg (Nat.succ_ne_zero steps), if_neg (Nat.succ_ne_zero steps)]
    omega
  · by_cases hsmall : units / 0x10000000000000 = 0
    · rw [Nat.zero_mul, Nat.add_zero, if_pos hsmall, if_pos hsmall]
      exact ⟨rfl, rfl⟩
    · rw [Nat.zero_mul, Nat.add_zero, if_neg hsmall, if_neg hsmall]
      omega

/-- A full significand on a grid within the range is the one of a finite double. -/
theorem OnGrid.exists_double {units steps : Nat} (hgrid : OnGrid units (finestGrid + steps))
    (hlt : units * (2 : Rat) ^ (finestGrid + steps) < 2 ^ (1024 : Int)) :
    ∃ x : Float, x.isFinite = true ∧ isNegative x = false ∧
      magnitude x = units * 2 ^ (finestGrid + steps) := by
  have hunits := hgrid.lt
  have hfull : binade ≤ units ∨ steps = 0 := hgrid.full.imp id (by omega)
  have hbits : units + steps * binade < infinityBits := by
    have hsteps : steps ≤ 2045 := by
      rcases hfull with hfull | rfl
      · have hpow : (2 : Rat) ^ (52 + (finestGrid + steps)) < 2 ^ (1024 : Int) := by
          refine lt_of_le_of_lt ?_ hlt
          rw [zpow_add₀ two_ne_zero, ← binade_cast]
          exact mul_le_mul_of_nonneg_right (Nat.cast_le.2 hfull) (two_zpow_pos _).le
        have hexponent := (zpow_lt_zpow_iff_right₀ (one_lt_two (α := Rat))).1 hpow
        rw [finestGrid] at hexponent
        omega
      · exact Nat.zero_le _
    have hcarry := Nat.mul_le_mul_right binade hsteps
    rw [infinityBits]
    rw [binade] at *
    omega
  have hmagnitude := magnitudeBits_ofBits hbits.le
  obtain ⟨hsignificand, hgridOf⟩ := significand_gridOf hunits hfull hmagnitude
  refine ⟨Float.ofBits (units + steps * binade).toUInt64, ?_, isNegative_ofBits hbits.le, ?_⟩
  · rwa [isFinite_iff, hmagnitude]
  · rw [magnitude, hsignificand, hgridOf]

/-- A representable magnitude is the one of a finite double. -/
theorem Representable.exists_double (hr : Representable r) :
    ∃ x : Float, x.isFinite = true ∧ isNegative x = false ∧ magnitude x = r := by
  obtain ⟨units, grid, hfinest, hunits, hlt, rfl⟩ := hr
  obtain ⟨steps, rfl⟩ := Int.le.dest hfinest
  clear hfinest
  -- A significand that is not full is doubled on the next finer grid.
  induction steps generalizing units with
  | zero => exact OnGrid.exists_double ⟨by simp, hunits, .inr (by simp)⟩ hlt
  | succ steps ih =>
    by_cases hfull : binade ≤ units
    · exact OnGrid.exists_double ⟨by omega, hunits, .inl hfull⟩ hlt
    · have hvalue : units * (2 : Rat) ^ (finestGrid + (steps + 1 : Nat)) =
          (2 * units : Nat) * 2 ^ (finestGrid + steps) := by
        rw [Nat.cast_succ, ← add_assoc, zpow_add_one₀ two_ne_zero]
        push_cast
        ring
      rw [hvalue] at hlt ⊢
      exact ih (2 * units) (by omega) hlt

theorem isFinite_abs (hx : x.isFinite = true) : x.abs.isFinite = true := by
  rwa [isFinite_iff, magnitudeBits_abs, ← isFinite_iff]

/-- Rounding leaves a representable magnitude as it is. -/
structure IsExact (x : Float) (r : Rat) : Prop where
  isFinite : x.isFinite = true
  isNegative : isNegative x = false
  magnitude : magnitude x = r

theorem IsExact.value (hx : IsExact x r) : Numeral.value x = r := by
  rw [Numeral.value, hx.isNegative, if_neg Bool.false_ne_true, hx.magnitude]

theorem IsExact.representable (hx : IsExact x r) : Representable r := by
  rw [← hx.magnitude]
  exact representable_magnitude hx.isFinite

theorem IsExact.nearest (hx : IsExact x r) : nearest r = x := by
  rw [← hx.magnitude, nearest_magnitude hx.isFinite, abs_of_not_isNegative hx.isNegative]

theorem Representable.isExact (hr : Representable r) : IsExact (nearest r) r := by
  obtain ⟨x, hfinite, hsign, hmagnitude⟩ := hr.exists_double
  have hx : IsExact x r := ⟨hfinite, hsign, hmagnitude⟩
  rwa [hx.nearest]

theorem isExact_zero : IsExact 0 0 := ⟨by decide, by decide, by decide +kernel⟩

theorem not_beq_zero (hx : magnitude x ≠ 0) : ¬(x == 0) = true := by
  intro hzero
  refine hx ?_
  rw [magnitude, significand, (beq_zero_iff x).1 hzero]
  simp

theorem IsExact.not_beq_zero (hx : IsExact x r) (hr : r ≠ 0) : ¬(x == 0) = true :=
  Numeral.not_beq_zero (hx.magnitude.trans_ne hr)

/-! ## Cutting and shifting -/

theorem floor_natCast (n : Nat) : (n : Rat).floor = n := Rat.floor_intCast n

theorem toWord_eq {n : Nat} (hx : IsExact x n) (hn : n < wordCount) : toWord x = n := by
  rw [toWord, hx.magnitude, floor_natCast, Int.toNat_natCast]
  exact min_eq_left (Nat.le_sub_one_of_lt hn)

theorem sub_floor_nonneg (r : Rat) : 0 ≤ r - r.floor := sub_nonneg.2 (Rat.floor_le r)

theorem sub_floor_lt_one (r : Rat) : r - r.floor < 1 :=
  sub_lt_iff_lt_add'.2 (Int.lt_floor_add_one r)

theorem floor_natCast_add (n : Nat) {f : Rat} (hlow : 0 ≤ f) (hhigh : f < 1) :
    (n + f).floor = n := by
  refine (Int.floor_eq_iff (a := (n : Rat) + f)).2 ⟨?_, ?_⟩
  · rw [Int.cast_natCast]
    exact le_add_of_nonneg_right hlow
  · rw [Int.cast_natCast]
    exact add_lt_add_right hhigh _

theorem toNat_floor_natCast_add (n : Nat) {f : Rat} (hf : 0 ≤ f) :
    (n + f).floor.toNat = n + f.floor.toNat := by
  have hfloor : 0 ≤ f.floor := Rat.le_floor_iff.2 (by exact_mod_cast hf)
  have hsum : (n + f).floor = n + f.floor := by
    rw [add_comm (n : Rat), add_comm (n : Int)]
    exact Int.floor_add_natCast f n
  omega

theorem toNat_floor (hr : 0 ≤ r) : (r.floor.toNat : Rat) = r.floor := by
  have hfloor : 0 ≤ r.floor := Rat.le_floor_iff.2 (by exact_mod_cast hr)
  exact_mod_cast congrArg (Int.cast (R := Rat)) (Int.toNat_of_nonneg hfloor)

theorem floor_natCast_div (units n : Nat) :
    ((units : Rat) / 2 ^ n).floor = (units / 2 ^ n : Nat) := by
  have hfloor := Rat.floor_natCast_div_natCast units (2 ^ n)
  rw [Nat.cast_pow] at hfloor
  exact hfloor

theorem representable_natCast {n : Nat} (hn : n < 2 * binade) : Representable n :=
  ⟨n, 0, by decide, hn, units_mul_lt hn (by decide), by simp⟩

theorem representable_two_zpow {p : Int} (hlow : finestGrid ≤ p) (hhigh : p < 1024) :
    Representable (2 ^ p) := by
  refine ⟨1, p, hlow, by decide, ?_, by simp⟩
  rw [Nat.cast_one, one_mul]
  exact zpow_lt_zpow_right₀ one_lt_two hhigh

/-- A representable magnitude cut at a power of two is representable. -/
theorem Representable.cut (hr : Representable r) (p : Int) :
    Representable ((r / 2 ^ p).floor * 2 ^ p) := by
  have hle : ((r / 2 ^ p).floor : Rat) * 2 ^ p ≤ r :=
    (le_div_iff₀ (two_zpow_pos p)).1 (Rat.floor_le _)
  obtain ⟨units, grid, hfinest, hunits, hlt, rfl⟩ := hr
  -- Below the grid nothing is cut off; above it the cut is a shorter significand.
  rcases le_total p grid with hp | hp
  · obtain ⟨n, rfl⟩ := Int.le.dest hp
    have hwhole : units * (2 : Rat) ^ (p + n) / 2 ^ p = (units * 2 ^ n : Nat) := by
      rw [zpow_add₀ two_ne_zero, zpow_natCast]
      push_cast
      field_simp
    refine ⟨units, p + n, hfinest, hunits, hlt, ?_⟩
    rw [hwhole, floor_natCast, Int.cast_natCast, ← hwhole,
      div_mul_cancel₀ _ (two_zpow_pos p).ne']
  · obtain ⟨n, rfl⟩ := Int.le.dest hp
    have hquotient : units * (2 : Rat) ^ grid / 2 ^ (grid + n) = units / 2 ^ n := by
      rw [zpow_add₀ two_ne_zero, zpow_natCast]
      field_simp
    rw [hquotient, floor_natCast_div, Int.cast_natCast] at hle ⊢
    exact ⟨units / 2 ^ n, grid + n, hfinest.trans hp, (Nat.div_le_self _ _).trans_lt hunits,
      hle.trans_lt hlt, rfl⟩

/-- Shifting within the range. -/
theorem Representable.shift (hr : Representable r) {n : Nat}
    (hlt : r * 2 ^ n < 2 ^ (1024 : Int)) : Representable (r * 2 ^ n) := by
  obtain ⟨units, grid, hfinest, hunits, -, rfl⟩ := hr
  have hvalue : units * (2 : Rat) ^ grid * 2 ^ n = units * 2 ^ (grid + n) := by
    rw [zpow_add₀ two_ne_zero, zpow_natCast]
    ring
  rw [hvalue] at hlt ⊢
  exact ⟨units, grid + n, by omega, hunits, hlt, rfl⟩

/-- Shifting a whole number to the right, far from the finest grid. -/
theorem Representable.natCast_div {n k : Nat} (hn : Representable n) (hk : k ≤ 1000) :
    Representable (n / 2 ^ k) := by
  have hbound := hn.lt
  obtain ⟨units, grid, hfinest, hunits, hlt, hvalue⟩ := hn
  have hquotient : (n : Rat) / 2 ^ k = units * 2 ^ (grid - k) := by
    rw [hvalue, zpow_sub₀ two_ne_zero, zpow_natCast]
    ring
  -- Only a magnitude below one would be shifted beyond the finest grid.
  by_cases hgrid : finestGrid ≤ grid - k
  · refine ⟨units, grid - k, hgrid, hunits, ?_, hquotient⟩
    rw [← hquotient]
    exact (div_le_self (Nat.cast_nonneg n) (one_le_pow₀ one_le_two)).trans_lt hbound
  · have hsmall : (n : Rat) < 1 := by
      have hcast : (units : Rat) < 2 * (binade : Nat) := by exact_mod_cast hunits
      rw [finestGrid] at hgrid
      calc (n : Rat) = units * 2 ^ grid := hvalue
        _ < 2 * (binade : Nat) * 2 ^ grid := mul_lt_mul_of_pos_right hcast (two_zpow_pos grid)
        _ = 2 ^ (53 + grid) := by
            rw [binade_cast, zpow_add₀ two_ne_zero]
            norm_num
        _ ≤ 2 ^ (0 : Int) := zpow_le_zpow_right₀ one_le_two (by omega)
        _ = 1 := zpow_zero 2
    have hzero : n = 0 := by
      have : n < 1 := by exact_mod_cast hsmall
      omega
    rw [hzero, Nat.cast_zero, zero_div]
    exact_mod_cast representable_natCast (show 0 < 2 * binade by decide)

/-- The fraction of a representable magnitude is representable. -/
theorem Representable.fraction (hr : Representable r) : Representable (r - r.floor) := by
  have hle : r - r.floor ≤ r := sub_le_self r (by
    exact_mod_cast Rat.le_floor_iff.2 (by simpa using hr.nonneg))
  have hbound := hle.trans_lt hr.lt
  obtain ⟨units, grid, hfinest, hunits, hlt, hvalue⟩ := hr
  rcases le_total 0 grid with hgrid | hgrid
  · obtain ⟨n, rfl⟩ := Int.eq_ofNat_of_zero_le hgrid
    have hwhole : r = (units * 2 ^ n : Nat) := by
      rw [hvalue]
      push_cast
      rfl
    have hzero : r - r.floor = (0 : Nat) := by
      rw [hwhole, floor_natCast, Int.cast_natCast, sub_self, Nat.cast_zero]
    rw [hzero]
    exact representable_natCast (by decide)
  · obtain ⟨n, rfl⟩ := Int.exists_eq_neg_ofNat hgrid
    have hquotient : r = units / 2 ^ n := by
      rw [hvalue, zpow_neg, zpow_natCast]
      rfl
    have hrest : r - r.floor = (units % 2 ^ n : Nat) * 2 ^ (-(n : Int)) := by
      have hsplit : (units : Rat) = 2 ^ n * (units / 2 ^ n : Nat) + (units % 2 ^ n : Nat) := by
        exact_mod_cast (Nat.div_add_mod units (2 ^ n)).symm
      rw [hquotient, floor_natCast_div, Int.cast_natCast, zpow_neg, zpow_natCast]
      field_simp
      linarith
    rw [hrest] at hbound ⊢
    exact ⟨_, _, hfinest, (Nat.mod_le _ _).trans_lt hunits, hbound, rfl⟩

end MatrixCalculator.Numeral
