import MatrixCalculator.Proofs.Numeral.Exact
import MatrixCalculator.Proofs.Numeral.Written

/-!
# Written whole numbers

A whole number is written with digits only.  The search for its shortest decimal walks
from the coarsest grid down and meets the number itself at the grid of the ones, so it
never gets as far as a grid with places behind the point.
-/

namespace MatrixCalculator.Numeral

variable {x : Float} {n : Nat}

/-- A whole number stands on the grid of the ones. -/
theorem neighbour?_ones (hx : IsExact x n) : neighbour? x n 0 = some ⟨n, 0⟩ := by
  have hposition : (n : Rat) / 10 ^ (0 : Int) = n := by rw [zpow_zero, div_one]
  have hbelow : Decimal.toDouble ⟨n, 0⟩ = x := by
    rw [Decimal.toDouble_eq_nearest, Decimal.toRat, zpow_zero, mul_one, hx.nearest]
  simp only [neighbour?, hposition, floor_natCast, Int.toNat_natCast, hbelow, Int.cast_natCast,
    sub_self, BEq.rfl]
  simp

theorem neighbour?_exponent {r : Rat} {exponent : Int} {d : Decimal}
    (hfound : neighbour? x r exponent = some d) : d.exponent = exponent := by
  simp only [neighbour?] at hfound
  split at hfound
  · cases hfound
    rfl
  · split at hfound
    · cases hfound
      rfl
    · cases hfound

/-- The search for a whole number ends before the places behind the point. -/
theorem searchGrids_whole (hx : IsExact x n) (steps : Nat) {exponent : Int}
    (hexponent : 0 ≤ exponent) :
    (∃ d, searchGrids x n steps exponent = some d ∧ 0 ≤ d.exponent) ∨
      searchGrids x n steps exponent = none ∧ steps ≤ exponent := by
  induction steps generalizing exponent with
  | zero => exact .inr ⟨rfl, hexponent⟩
  | succ steps ih =>
    rw [searchGrids]
    cases hneighbour : neighbour? x n exponent with
    | some d => exact .inl ⟨d, rfl, by rwa [neighbour?_exponent hneighbour]⟩
    | none =>
      have hne : exponent ≠ 0 := by
        rintro rfl
        rw [neighbour?_ones hx] at hneighbour
        cases hneighbour
      rcases ih (show 0 ≤ exponent - 1 by omega) with hfound | ⟨hnone, hsteps⟩
      · exact .inl hfound
      · exact .inr ⟨hnone, by omega⟩

theorem coarsestGrid_nonneg (hn : n ≠ 0) : 0 ≤ coarsestGrid n := by
  have hone : (2 : Rat) ^ (0 : Int) ≤ n := by
    rw [zpow_zero]
    exact_mod_cast Nat.one_le_iff_ne_zero.2 hn
  have hlog := le_floorLog2 hone
  rw [coarsestGrid]
  omega

/-- Twenty grids reach from the coarsest one to the ones, unless the double is so large
that it is a whole number of units anyway. -/
theorem shortest_exponent_nonneg (hx : IsExact x n) (hn : n ≠ 0) : 0 ≤ (shortest x).exponent := by
  rw [shortest, abs_of_not_isNegative hx.isNegative, hx.magnitude]
  rcases searchGrids_whole hx 20 (coarsestGrid_nonneg hn) with
    ⟨d, hfound, hexponent⟩ | ⟨hnone, hsteps⟩
  · rwa [hfound]
  · rw [hnone, Option.getD_none, exactDecimal]
    split
    · exact le_rfl
    · next hgrid =>
      exfalso
      have hpos : (0 : Rat) < n := Nat.cast_pos.2 (Nat.pos_of_ne_zero hn)
      have hsmall : (n : Rat) < 2 ^ (53 : Int) := by
        have hsignificand : (significand x : Rat) < 2 * (binade : Nat) := by
          exact_mod_cast (onGrid x).lt
        calc (n : Rat) = significand x * 2 ^ gridOf x := hx.magnitude.symm
          _ < 2 * (binade : Nat) * 2 ^ gridOf x :=
              mul_lt_mul_of_pos_right hsignificand (two_zpow_pos _)
          _ = 2 ^ (53 + gridOf x) := by
              rw [binade_cast, zpow_add₀ two_ne_zero]
              norm_num
          _ ≤ 2 ^ (53 : Int) := zpow_le_zpow_right₀ one_le_two (by omega)
      have hlog := floorLog2_lt hpos hsmall
      rw [coarsestGrid] at hsteps
      omega

/-- Digits that end in front of the point are followed by zeros up to it. -/
theorem Digits.exists_positional_whole {d : Digits} (hd : d.Proper)
    (hlength : d.digits.length ≤ d.point) :
    ∃ digits : DigitText, digits.text = d.positional ∧ ofDigits digits.text = d.toRat := by
  obtain ⟨digits, point⟩ := d
  obtain ⟨hne, hdigits⟩ := hd
  simp only at hne hdigits hlength
  have hpos := List.length_pos_iff.2 hne
  refine ⟨⟨digits ++ List.replicate (point - digits.length).toNat '0', by simp [hne],
    List.forall_mem_append.2 ⟨hdigits, forall_isDigit_zeros _⟩⟩, ?_, ?_⟩
  · simp only [positional]
    rw [if_neg (by omega), if_pos hlength]
  · obtain ⟨count, hcount⟩ := Int.eq_ofNat_of_zero_le (sub_nonneg.2 hlength)
    rw [toRat, ofDigits_append, ofDigits_zeros, List.length_replicate, hcount]
    simp

/-- A whole number is written with digits only. -/
theorem exists_writePositional_whole (hx : IsExact x n) :
    ∃ digits : DigitText, digits.text = writePositional x ∧ nearest (ofDigits digits.text) = x := by
  rcases eq_or_ne n 0 with rfl | hn
  · have hzero : x = 0 := by
      rw [← hx.nearest, Nat.cast_zero, isExact_zero.nearest]
    rw [hzero]
    exact ⟨⟨['0'], by simp, by simp⟩, by decide +kernel, by exact_mod_cast isExact_zero.nearest⟩
  · have hzero := hx.not_beq_zero (Nat.cast_ne_zero.2 hn)
    rw [writePositional_of_isFinite hx.isFinite, signed, hx.isNegative,
      if_neg Bool.false_ne_true, if_neg hzero]
    have hcoefficient := shortest_coefficient_ne_zero hx.isFinite hzero
    obtain ⟨count, -, -, hpoint⟩ := (shortest x).exists_toDigits
    have hexponent := shortest_exponent_nonneg hx hn
    obtain ⟨digits, htext, hvalue⟩ :=
      Digits.exists_positional_whole (Decimal.toDigits_proper hcoefficient) (by omega)
    refine ⟨digits, htext, ?_⟩
    rw [hvalue, Decimal.toDigits_toRat, ← Decimal.toDouble_eq_nearest,
      shortest_toDouble hx.isFinite, abs_of_not_isNegative hx.isNegative]

end MatrixCalculator.Numeral
