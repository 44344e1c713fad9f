import MatrixCalculator.Proofs.Numeral.Nearest

/-!
# Shortest decimals

A search that tests every decimal by reading it back can only answer with one that
reads back.  The decimal behind the search is the exact value of the double, which
reads back because a double is the nearest one to its own value.
-/

namespace MatrixCalculator.Numeral

variable {x : Float}

/-- The exact decimal of a double denotes its exact magnitude. -/
theorem exactDecimal_toRat (x : Float) : (exactDecimal x).toRat = magnitude x := by
  rw [exactDecimal, magnitude]
  split
  · next hgrid =>
    obtain ⟨n, hn⟩ := Int.eq_ofNat_of_zero_le hgrid
    rw [Decimal.toRat, hn, Int.toNat_natCast, Nat.shiftLeft_eq, zpow_zero, zpow_natCast]
    push_cast
    ring
  · next hgrid =>
    obtain ⟨n, hn⟩ := Int.exists_eq_neg_ofNat (not_le.1 hgrid).le
    have hfive : (10 : Rat) ^ n = 5 ^ n * 2 ^ n := by
      rw [← mul_pow]
      norm_num
    rw [Decimal.toRat, hn, neg_neg, Int.toNat_natCast, zpow_neg, zpow_neg, zpow_natCast,
      zpow_natCast, hfive, Nat.cast_mul, show Nat.pow 5 n = 5 ^ n from rfl]
    push_cast
    field_simp

theorem exactDecimal_toDouble (hx : x.isFinite = true) : (exactDecimal x).toDouble = x.abs := by
  rw [Decimal.toDouble_eq_nearest, exactDecimal_toRat, nearest_magnitude hx]

theorem neighbour?_toDouble {r : Rat} {exponent : Int} {d : Decimal}
    (hfound : neighbour? x r exponent = some d) : d.toDouble = x := by
  have hbits : d.toDouble.toBits = x.toBits := by
    simp only [neighbour?] at hfound
    split at hfound
    · next hlower =>
      cases hfound
      simp only [Bool.and_eq_true, beq_iff_eq] at hlower
      exact hlower.1
    · split at hfound
      · next hupper =>
        cases hfound
        exact beq_iff_eq.1 hupper
      · cases hfound
  exact Float.toBits_inj.1 hbits

theorem searchGrids_toDouble {r : Rat} {steps : Nat} {exponent : Int} {d : Decimal}
    (hfound : searchGrids x r steps exponent = some d) : d.toDouble = x := by
  induction steps generalizing exponent with
  | zero => cases hfound
  | succ steps ih =>
    rw [searchGrids] at hfound
    split at hfound
    · next hneighbour =>
      cases hfound
      exact neighbour?_toDouble hneighbour
    · exact ih hfound

/-- The shortest decimal of a finite double reads back as its magnitude. -/
theorem shortest_toDouble (hx : x.isFinite = true) : (shortest x).toDouble = x.abs := by
  rw [shortest]
  cases hsearch : searchGrids x.abs (magnitude x) 20 (coarsestGrid (magnitude x)) with
  | none => exact exactDecimal_toDouble hx
  | some d => exact searchGrids_toDouble hsearch

theorem shortest_coefficient_ne_zero (hx : x.isFinite = true) (hzero : ¬(x == 0) = true) :
    (shortest x).coefficient ≠ 0 := by
  intro hcoefficient
  have hdouble := shortest_toDouble hx
  rw [Decimal.toDouble, if_pos hcoefficient] at hdouble
  rw [beq_zero_iff, ← magnitudeBits_abs, ← hdouble] at hzero
  exact hzero (by decide)

end MatrixCalculator.Numeral
