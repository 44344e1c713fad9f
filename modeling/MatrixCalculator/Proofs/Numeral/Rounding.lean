import MatrixCalculator.Proofs.Numeral.Exact

/-!
# Whole numbers as doubles

Below two binades every whole number is a double.  From there on neighbouring doubles are at
least two apart, so the double closest to a whole number is whole too, and it may be another
number.  As a word of 64 bits a whole number therefore comes back only if it is a double, or
if it is the largest word, where the conversion stops.
-/

namespace MatrixCalculator.Numeral

variable {n : Nat}

theorem magnitudeBits_nearest (n : Nat) : magnitudeBits (nearest n) = nearestBits n := by
  rw [nearest, if_neg (not_lt.2 (Nat.cast_nonneg n))]
  exact magnitudeBits_ofBits (nearestBits_le _)

/-- From two binades on the units of a number are at least two. -/
theorem le_nearestBits (hn : 2 * binade ≤ n) : 1076 * binade ≤ nearestBits n := by
  have hpow : (2 : Rat) ^ (53 : Int) ≤ n := by
    have hcast : ((2 * binade : Nat) : Rat) ≤ n := Nat.cast_le.2 hn
    rw [binade] at hcast
    exact le_trans (by norm_num) hcast
  have hpos : (0 : Rat) < n := (two_zpow_pos 53).trans_le hpow
  have hlog : 53 ≤ floorLog2 n := le_floorLog2 hpow
  have hgrid : gridFor n = floorLog2 n - 52 := by
    rw [gridFor, finestGrid]
    omega
  have hunits : (binade : Int) ≤ roundHalfEven (n / (2 : Rat) ^ gridFor n) := by
    refine le_trans (Rat.le_floor_iff.2 ?_) (floor_le_roundHalfEven _)
    rw [le_div_iff₀ (two_zpow_pos _), Int.cast_natCast, binade_cast, hgrid,
      ← zpow_add₀ two_ne_zero, add_sub_cancel]
    exact two_zpow_floorLog2_le hpos
  rw [nearestBits, if_neg (not_le.2 hpos)]
  refine le_min ?_ (by decide)
  have hsteps : 1075 ≤ (gridFor n - finestGrid).toNat := by
    rw [hgrid, finestGrid]
    omega
  have hcarry := Nat.mul_le_mul_right binade hsteps
  omega

/-- The double closest to a whole number is whole unless it is infinite. -/
theorem exists_isExact_nearest (hfinite : (nearest n).isFinite = true) :
    ∃ m : Nat, IsExact (nearest n) m ∧ (m = n ∨ 2 * binade ≤ n ∧ 2 * binade ≤ m) := by
  rcases lt_or_ge n (2 * binade) with hn | hn
  · exact ⟨n, (representable_natCast hn).isExact, .inl rfl⟩
  have hbits := le_nearestBits hn
  rw [← magnitudeBits_nearest] at hbits
  have hplace : 1076 ≤ magnitudeBits (nearest n) / binade :=
    (Nat.le_div_iff_mul_le (by decide)).2 hbits
  have hsignificand : binade ≤ significand (nearest n) := by
    rw [significand, if_neg (by omega)]
    exact Nat.le_add_left _ _
  have hgrid : 1 ≤ gridOf (nearest n) := by
    rw [gridOf, if_neg (by omega), finestGrid]
    omega
  obtain ⟨steps, hsteps⟩ := Int.eq_ofNat_of_zero_le (show 0 ≤ gridOf (nearest n) - 1 by omega)
  refine ⟨significand (nearest n) * 2 ^ (steps + 1), ⟨hfinite,
    isNegative_nearest (Nat.cast_nonneg n), ?_⟩, .inr ⟨hn, ?_⟩⟩
  · have hgridOf : gridOf (nearest n) = (steps + 1 : Nat) := by omega
    rw [magnitude, hgridOf, zpow_natCast]
    push_cast
    rfl
  · have hpow : 2 ≤ 2 ^ (steps + 1) := by
      rw [pow_succ]
      exact Nat.le_mul_of_pos_left 2 (Nat.two_pow_pos steps)
    calc 2 * binade = binade * 2 := Nat.mul_comm ..
      _ ≤ significand (nearest n) * 2 ^ (steps + 1) := Nat.mul_le_mul hsignificand hpow

/-- A whole number survives as a word exactly if it is a double of 64 bits or the largest
word. -/
theorem toWord_nearest_eq_iff :
    (nearest n).isFinite = true ∧ toWord (nearest n) = n ↔
      n < wordCount ∧ Representable n ∨ n = wordCount - 1 := by
  constructor
  · rintro ⟨hfinite, hword⟩
    obtain ⟨m, hexact, -⟩ := exists_isExact_nearest hfinite
    rw [toWord, hexact.magnitude, floor_natCast, Int.toNat_natCast] at hword
    rcases min_choice m (wordCount - 1) with hmin | hmin
    · obtain rfl : m = n := hmin.symm.trans hword
      have hle : m ≤ wordCount - 1 := min_eq_left_iff.1 hmin
      exact .inl ⟨Nat.lt_of_le_pred (by decide) hle, hexact.representable⟩
    · exact .inr (hword.symm.trans hmin)
  · rintro (⟨hlt, hn⟩ | rfl)
    · exact ⟨hn.isExact.isFinite, toWord_eq hn.isExact hlt⟩
    · decide +kernel

end MatrixCalculator.Numeral
