import MatrixCalculator.Numeral.Root
import MatrixCalculator.Proofs.Numeral.Arithmetic

/-!
# Roots are rounded once

The root that is found bit by bit has more bits than a double, and the bit behind them says
whether something is left.  All numbers strictly between two neighbours on so fine a grid are
rounded alike, as none of them is halfway between doubles, so the exact root is rounded like
the number with that bit.
-/

namespace MatrixCalculator.Numeral

variable {r s : Rat}

/-! ## Rounding between the places of a grid -/

/-- Whether a number is strictly between two neighbours on a binary grid. -/
structure Between (units : Nat) (grid : Int) (r : Rat) : Prop where
  gt : units * (2 : Rat) ^ grid < r
  lt : r < (units + 1) * (2 : Rat) ^ grid

section Between

variable {units : Nat} {grid : Int}

theorem Between.pos (hr : Between units grid r) : 0 < r :=
  (mul_nonneg (Nat.cast_nonneg units) (two_zpow_pos grid).le).trans_lt hr.gt

theorem Between.floorLog2_eq (hr : Between units grid r) (hunits : 0 < units) :
    floorLog2 r = units.log2 + grid := by
  have hlow : (2 : Rat) ^ units.log2 ≤ units := by
    exact_mod_cast Nat.log2_self_le hunits.ne'
  have hhigh : (units : Rat) + 1 ≤ 2 ^ ((units.log2 : Int) + 1) := by
    exact_mod_cast Nat.lt_log2_self (n := units)
  apply Numeral.floorLog2_eq
  · rw [zpow_add₀ two_ne_zero, zpow_natCast]
    exact (mul_le_mul_of_nonneg_right hlow (two_zpow_pos grid).le).trans hr.gt.le
  · refine hr.lt.trans_le ?_
    rw [add_right_comm, zpow_add₀ two_ne_zero]
    exact mul_le_mul_of_nonneg_right hhigh (two_zpow_pos grid).le

theorem Between.div (hr : Between units grid r) (steps : Int) :
    Between units (grid - steps) (r / (2 : Rat) ^ steps) := by
  have hpow := two_zpow_pos steps
  constructor
  · rw [lt_div_iff₀ hpow, mul_assoc, ← zpow_add₀ two_ne_zero, sub_add_cancel]
    exact hr.gt
  · rw [div_lt_iff₀ hpow, mul_assoc, ← zpow_add₀ two_ne_zero, sub_add_cancel]
    exact hr.lt

/-- The places of a coarser grid are among those of a finer one. -/
theorem Between.coarser {steps : Nat} (hr : Between units (grid - steps) r) :
    Between (units / 2 ^ steps) grid r := by
  have hpow := two_zpow_pos (grid - steps)
  have hgrid : (2 : Rat) ^ grid = (2 ^ steps : Nat) * 2 ^ (grid - steps) := by
    rw [Nat.cast_pow, Nat.cast_ofNat, ← zpow_natCast, ← zpow_add₀ two_ne_zero, add_sub_cancel]
  have hlow : units / 2 ^ steps * 2 ^ steps ≤ units := Nat.div_mul_le_self _ _
  have hhigh : units + 1 ≤ (units / 2 ^ steps + 1) * 2 ^ steps :=
    Nat.lt_mul_of_div_lt (Nat.lt_succ_self _) (Nat.two_pow_pos steps)
  constructor
  · refine lt_of_le_of_lt ?_ hr.gt
    rw [hgrid, ← mul_assoc]
    exact mul_le_mul_of_nonneg_right (by exact_mod_cast hlow) hpow.le
  · refine hr.lt.trans_le ?_
    rw [hgrid, ← mul_assoc]
    exact mul_le_mul_of_nonneg_right (by exact_mod_cast hhigh) hpow.le

/-- A number between two neighbouring halves is rounded to the one that is whole. -/
theorem Between.roundHalfEven_eq (hr : Between units (-1) r) :
    roundHalfEven r = ((units + 1) / 2 : Nat) := by
  have hlow := hr.gt
  have hhigh := hr.lt
  rw [zpow_neg_one] at hlow hhigh
  have hfloor : r.floor = (units / 2 : Nat) := by
    have hbelow : ((units / 2 : Nat) : Rat) * 2 ≤ units := by
      exact_mod_cast Nat.div_mul_le_self units 2
    have habove : (units : Rat) + 1 ≤ ((units / 2 : Nat) + 1) * 2 := by
      exact_mod_cast show units + 1 ≤ (units / 2 + 1) * 2 by omega
    refine (Int.floor_eq_iff (a := r)).2 ⟨?_, ?_⟩ <;> rw [Int.cast_natCast] <;> linarith
  simp only [roundHalfEven, hfloor, Int.cast_natCast]
  rcases Nat.mod_two_eq_zero_or_one units with heven | hodd
  · have hunits : (units : Rat) = 2 * (units / 2 : Nat) := by
      exact_mod_cast show units = 2 * (units / 2) by omega
    have hrest : r - (units / 2 : Nat) < 1 / 2 := by linarith
    rw [if_neg (by rintro (hgt | ⟨heq, -⟩) <;> linarith)]
    omega
  · have hunits : (units : Rat) = 2 * (units / 2 : Nat) + 1 := by
      exact_mod_cast show units = 2 * (units / 2) + 1 by omega
    have hrest : 1 / 2 < r - (units / 2 : Nat) := by linarith
    rw [if_pos (.inl hrest)]
    omega

/-- On a grid with two bits more than a double has, all numbers between two neighbours are
rounded alike. -/
theorem Between.nearest_eq (hunits : 2 ^ 54 ≤ units) (hr : Between units grid r)
    (hs : Between units grid s) : nearest r = nearest s := by
  have hpos : 0 < units := Nat.lt_of_lt_of_le (by decide) hunits
  have hlog : 54 ≤ units.log2 := (Nat.le_log2 hpos.ne').2 hunits
  have hgrid : gridFor r = gridFor s := by
    rw [gridFor, gridFor, hr.floorLog2_eq hpos, hs.floorLog2_eq hpos]
  obtain ⟨steps, hsteps⟩ : ∃ steps : Nat, gridFor r = grid + 1 + steps := by
    refine Int.le.dest (show grid + 1 ≤ gridFor r from ?_) |>.imp fun _ h => h.symm
    rw [gridFor, hr.floorLog2_eq hpos]
    omega
  have hround : ∀ {t : Rat}, Between units grid t →
      roundHalfEven (t / (2 : Rat) ^ gridFor r) = ((units / 2 ^ steps + 1) / 2 : Nat) := by
    intro t ht
    have hscaled := ht.div (gridFor r)
    have hhalves : grid - gridFor r = -1 - steps := by omega
    rw [hhalves] at hscaled
    exact hscaled.coarser.roundHalfEven_eq
  have hbits : nearestBits r = nearestBits s := by
    rw [nearestBits, nearestBits, if_neg (not_le.2 hr.pos), if_neg (not_le.2 hs.pos), ← hgrid]
    simp only [hround hr, hround hs]
  rw [nearest, nearest, if_neg (not_lt.2 hr.pos.le), if_neg (not_lt.2 hs.pos.le), hbits]

end Between

/-! ## Whole roots -/

namespace Power

variable {power : Power}

theorem apply_eq_pow (power : Power) (root : Nat) : power.apply root = root ^ power.degree := by
  cases power with
  | square => exact (sq root).symm
  | cube => rw [apply, degree, Nat.pow_succ, sq]

theorem degree_pos (power : Power) : 0 < power.degree := by cases power <;> decide

/-- The root stays below the true one, and what the remaining bits can add reaches beyond
it. -/
theorem refineRoot_bounds {n bits root : Nat} (hlow : root ^ power.degree ≤ n)
    (hhigh : n < (root + 2 ^ bits) ^ power.degree) :
    power.refineRoot n bits root ^ power.degree ≤ n ∧
      n < (power.refineRoot n bits root + 1) ^ power.degree := by
  induction bits generalizing root with
  | zero => exact ⟨hlow, hhigh⟩
  | succ bits ih =>
    have hbit : 1 <<< bits = 2 ^ bits := Nat.one_shiftLeft bits
    rw [refineRoot]
    simp only [apply_eq_pow, hbit]
    split
    · next hle =>
      refine ih hle ?_
      rwa [Nat.add_assoc, ← Nat.two_mul, ← Nat.pow_succ']
    · next hgt => exact ih hlow (Nat.lt_of_not_le hgt)

theorem wholeRoot_bounds (power : Power) (n : Nat) :
    power.wholeRoot n ^ power.degree ≤ n ∧ n < (power.wholeRoot n + 1) ^ power.degree := by
  refine refineRoot_bounds ?_ ?_
  · rw [Nat.zero_pow power.degree_pos]
    exact Nat.zero_le n
  · rw [Nat.zero_add, ← Nat.pow_mul, Nat.mul_comm]
    refine Nat.lt_log2_self.trans_le (Nat.pow_le_pow_right two_pos ?_)
    exact Nat.lt_mul_div_succ n.log2 power.degree_pos

/-! ## Rounded roots -/

/-- The whole root of a number that need not be whole, and when nothing of the number is
left. -/
theorem wholeRoot_floor_bounds (power : Power) (hr : 0 ≤ r) :
    (power.wholeRoot r.floor.toNat : Rat) ^ power.degree ≤ r ∧
      r < ((power.wholeRoot r.floor.toNat : Rat) + 1) ^ power.degree ∧
      (power.apply (power.wholeRoot r.floor.toNat) = r.floor.toNat ∧ r.den = 1 ↔
        (power.wholeRoot r.floor.toNat : Rat) ^ power.degree = r) := by
  obtain ⟨n, hn⟩ := Int.eq_ofNat_of_zero_le (Rat.le_floor_iff.2 (by exact_mod_cast hr))
  obtain ⟨hlow, hhigh⟩ := (Int.floor_eq_iff (a := r)).1 hn
  rw [Int.cast_natCast] at hlow hhigh
  obtain ⟨hroot, hnext⟩ := power.wholeRoot_bounds n
  rw [hn, Int.toNat_natCast, apply_eq_pow]
  refine ⟨le_trans (by exact_mod_cast hroot) hlow, hhigh.trans_le (by exact_mod_cast hnext), ?_⟩
  constructor
  · rintro ⟨hpow, hden⟩
    have hnum := (Rat.den_eq_one_iff r).1 hden
    have hfloor : r.floor = r.num := (congrArg Rat.floor hnum).symm.trans (Rat.floor_intCast _)
    rw [← Nat.cast_pow, hpow, ← hnum, ← hfloor, hn, Int.cast_natCast]
  · intro hpow
    have hwhole : ((power.wholeRoot n ^ power.degree : Nat) : Rat) = r := by rw [Nat.cast_pow, hpow]
    rw [← hwhole, floor_natCast, Int.ofNat_inj] at hn
    exact ⟨hn, hwhole ▸ Rat.den_natCast _⟩

/-- A number is scaled far enough for its root to have more bits than a double. -/
theorem two_pow_le_scaled (power : Power) (hr : 0 < r) :
    ((2 : Rat) ^ 56) ^ power.degree ≤
      r * 2 ^ (power.degree * (56 - floorLog2 r / power.degree)) := by
  have hlog : power.degree * (floorLog2 r / power.degree) ≤ floorLog2 r :=
    Int.mul_ediv_self_le (by exact_mod_cast power.degree_pos.ne')
  have hpow : (2 : Rat) ^ (power.degree * (floorLog2 r / power.degree)) ≤ r :=
    (zpow_le_zpow_right₀ one_le_two hlog).trans (two_zpow_floorLog2_le hr)
  calc ((2 : Rat) ^ 56) ^ power.degree
      = 2 ^ (power.degree * (floorLog2 r / power.degree)) *
          2 ^ (power.degree * (56 - floorLog2 r / power.degree)) := by
        rw [← pow_mul, ← zpow_natCast, ← zpow_add₀ two_ne_zero]
        congr 1
        push_cast
        ring
    _ ≤ _ := mul_le_mul_of_nonneg_right hpow (two_zpow_pos _).le

theorem unscale (power : Power) (x : Rat) (shift : Int) :
    (x * 2 ^ (-shift)) ^ power.degree * 2 ^ (power.degree * shift) = x ^ power.degree := by
  have hshift : -shift * power.degree + power.degree * shift = 0 := by ring
  rw [mul_pow, mul_assoc, ← zpow_natCast (2 ^ (-shift) : Rat), ← zpow_mul,
    ← zpow_add₀ two_ne_zero, hshift, zpow_zero, mul_one]

/-- The root is found on a grid on which it has more bits than a double. -/
theorem exists_scaledRoot (power : Power) (hr : 0 < r) :
    ∃ (root : Nat) (grid : Int), 2 ^ 56 ≤ root ∧
      (root * (2 : Rat) ^ grid) ^ power.degree ≤ r ∧
      r < ((root + 1) * (2 : Rat) ^ grid) ^ power.degree ∧
      power.nearestRoot r = nearest (if (root * (2 : Rat) ^ grid) ^ power.degree = r
        then root * 2 ^ grid else (2 * root + 1 : Nat) * 2 ^ (grid - 1)) := by
  let shift := 56 - floorLog2 r / power.degree
  have hscale := two_zpow_pos (power.degree * shift)
  obtain ⟨hlow, hhigh, hleft⟩ := power.wholeRoot_floor_bounds (mul_pos hr hscale).le
  have hlarge := (power.two_pow_le_scaled hr).trans_lt hhigh
  have hexact := power.unscale (power.wholeRoot (r * 2 ^ (power.degree * shift)).floor.toNat) shift
  refine ⟨power.wholeRoot (r * 2 ^ (power.degree * shift)).floor.toNat, -shift, ?_, ?_, ?_, ?_⟩
  · have hroot := lt_of_pow_lt_pow_left₀ _ (by positivity) hlarge
    exact Nat.lt_succ_iff.1 (by exact_mod_cast hroot)
  · rw [← hexact] at hlow
    exact le_of_mul_le_mul_right hlow hscale
  · rw [← power.unscale _ shift] at hhigh
    exact lt_of_mul_lt_mul_right hhigh hscale.le
  · rw [← hexact, mul_left_inj' hscale.ne'] at hleft
    have hgrid : ∀ x : Rat, x / 2 ^ (shift + 1) = x * 2 ^ (-shift - 1) := by
      intro x
      rw [div_eq_mul_inv, ← zpow_neg, neg_add, ← sub_eq_add_neg]
    rw [nearestRoot]
    refine congrArg nearest ((hgrid _).trans ?_)
    split
    · next hpower =>
      rw [if_pos (hleft.1 hpower), Nat.add_zero, Nat.cast_mul, mul_comm (Nat.cast 2), mul_assoc,
        Nat.cast_ofNat, ← zpow_one_add₀ two_ne_zero, add_sub_cancel]
    · next hpower => rw [if_neg (mt hleft.2 hpower)]

/-- Whether a double is what the root of a number is rounded to: of the root itself if it is
rational, and of every number near it if not. -/
inductive IsRounded (power : Power) (r : Rat) (y : Float) : Prop
  | rational (q : Rat) (hq : 0 < q) (hpow : q ^ power.degree = r) (hvalue : y = nearest q)
  | between (low high : Rat) (hlow : 0 ≤ low) (hwide : low < high)
    (hbelow : low ^ power.degree < r) (habove : r < high ^ power.degree)
    (hvalue : ∀ q, low < q → q < high → y = nearest q)

theorem isRounded_nearestRoot (power : Power) (hr : 0 < r) :
    power.IsRounded r (power.nearestRoot r) := by
  obtain ⟨root, grid, hroot, hlow, hhigh, hvalue⟩ := power.exists_scaledRoot hr
  have hpow := two_zpow_pos grid
  by_cases hexact : (root * (2 : Rat) ^ grid) ^ power.degree = r
  · rw [if_pos hexact] at hvalue
    have hpos : (0 : Rat) < root := Nat.cast_pos.2 (Nat.lt_of_lt_of_le (by decide) hroot)
    exact .rational _ (mul_pos hpos hpow) hexact hvalue
  · rw [if_neg hexact] at hvalue
    refine .between (root * 2 ^ grid) ((root + 1) * 2 ^ grid) (by positivity) (by linarith)
      (lt_of_le_of_ne hlow hexact) hhigh ?_
    intro q hq hq'
    have hhalf : Between root grid ((2 * root + 1 : Nat) * 2 ^ (grid - 1)) := by
      have hdouble : (2 : Rat) ^ grid = 2 * 2 ^ (grid - 1) := by
        rw [← zpow_one_add₀ two_ne_zero, add_sub_cancel]
      have hfine := two_zpow_pos (grid - 1)
      constructor <;> rw [hdouble] <;> push_cast <;> linarith
    rw [hvalue]
    exact hhalf.nearest_eq (Nat.le_trans (by decide) hroot) ⟨hq, hq'⟩

/-- A rational root is rounded itself. -/
theorem IsRounded.eq_nearest {power : Power} {y : Float} (hs : 0 < s)
    (hy : power.IsRounded (s ^ power.degree) y) : y = nearest s := by
  cases hy with
  | rational q hq hpow hvalue =>
    rwa [← (pow_left_inj₀ hq.le hs.le power.degree_pos.ne').1 hpow]
  | between low high hlow hwide hbelow habove hvalue =>
    exact hvalue s (lt_of_pow_lt_pow_left₀ _ hs.le hbelow)
      (lt_of_pow_lt_pow_left₀ _ (hlow.trans hwide.le) habove)

end Power

section Functions

variable {x y : Float}

theorem HasValue.not_beq_zero (hx : HasValue x r) (hr : r ≠ 0) : ¬(x == 0) = true := by
  apply Numeral.not_beq_zero
  rw [magnitude_eq_abs_value, hx.value]
  exact abs_ne_zero.2 hr

theorem HasValue.isNegative_iff (hx : HasValue x r) (hr : r ≠ 0) :
    isNegative x = true ↔ r < 0 := by
  have hmagnitude := magnitude_nonneg x
  have hvalue := hx.value
  rw [Numeral.value] at hvalue
  split at hvalue
  · next hnegative => exact iff_of_true hnegative (lt_of_le_of_ne (by linarith) hr)
  · next hpositive => exact iff_of_false hpositive (by linarith)

/-- The cube root of a number has its sign and is rounded once. -/
theorem isRounded_cubeRoot (hx : HasValue x r) (hr : r ≠ 0) :
    ∃ y, Power.cube.IsRounded |r| y ∧ cubeRoot x = if r < 0 then -y else y := by
  refine ⟨_, Power.cube.isRounded_nearestRoot (abs_pos.2 hr), ?_⟩
  rw [cubeRoot, if_neg (by simp [hx.isFinite, hx.not_beq_zero hr]), magnitude_eq_abs_value,
    hx.value]
  exact if_congr (hx.isNegative_iff hr) rfl rfl

/-- The cube root of a cube is the double nearest to the root. -/
theorem cubeRoot_of_cube (hx : HasValue x (s ^ 3)) (hs : s ≠ 0) : cubeRoot x = nearest s := by
  obtain ⟨y, hy, hroot⟩ := isRounded_cubeRoot hx (pow_ne_zero 3 hs)
  rw [abs_pow] at hy
  rw [hroot, hy.eq_nearest (abs_pos.2 hs)]
  have hodd : s ^ 3 < 0 ↔ s < 0 := Odd.pow_neg_iff (by decide)
  by_cases hneg : s < 0
  · rw [if_pos (hodd.2 hneg), abs_of_neg hneg, nearest_of_neg hneg]
  · rw [if_neg (mt hodd.1 hneg), abs_of_nonneg (not_lt.1 hneg)]

example : cubeRoot (-27) = -3 := by decide +kernel

/-- The length of a vector is rounded once. -/
theorem isRounded_hypotenuse (hx : HasValue x r) (hy : HasValue y s) (hpos : 0 < r * r + s * s) :
    Power.square.IsRounded (r * r + s * s) (hypotenuse x y) := by
  rw [hypotenuse, if_pos ⟨hx.isFinite, hy.isFinite⟩]
  simp only [magnitude_eq_abs_value, hx.value, hy.value, abs_mul_abs_self]
  rw [if_neg hpos.ne']
  exact Power.square.isRounded_nearestRoot hpos

end Functions

end MatrixCalculator.Numeral
