import MatrixCalculator.Matrix.Decomposition
import MatrixCalculator.Matrix.Power
import MatrixCalculator.Proofs.Matrix.Products
import MatrixCalculator.Proofs.Numeral.Comparison
import Mathlib.LinearAlgebra.Matrix.Notation

/-!
# Whole powers of matrices of integers

A whole power is a product of repeated squares, one for each binary digit of the exponent
that is set.  As long as these products are exact, so is the power, with one limit: the
number of factors is counted in a word of 64 bits and stays at the largest one for any
greater exponent.  Then the power has an odd number of factors, whatever the exponent is.
-/

namespace MatrixCalculator.Matrix

open Numeral

variable {n : ℕ} {m : Matrix Float} {a b : IntegerMatrix n}

/-! ## Repeated squaring -/

/-- Whether the products on the way to a power are exact: the squares up to the last
binary digit of the number of factors, and their products for the digits that are set. -/
structure PowersExactly (a : IntegerMatrix n) (steps : ℕ) : Prop where
  square : ∀ k, 2 ^ (k + 1) ≤ steps → FormsExactly (a ^ 2 ^ k) (a ^ 2 ^ k)
  factor : ∀ k, steps.testBit k → FormsExactly (a ^ (steps % 2 ^ k)) (a ^ 2 ^ k)

/-- The rounds from the digit `k` on complete the power from that of the digits below. -/
theorem holds_powerLoop {front base : Matrix Float} {steps k rest : ℕ}
    (hexact : PowersExactly a steps) (hrest : rest = steps / 2 ^ k)
    (hfront : front.Holds (a ^ (steps % 2 ^ k))) (hbase : rest ≠ 0 → base.Holds (a ^ 2 ^ k)) :
    (powerLoop front base rest).Holds (a ^ steps) := by
  induction rest using Nat.strong_induction_on generalizing k front base with
  | _ rest ih =>
    rw [powerLoop]
    split
    · next hzero =>
      have hlt : steps < 2 ^ k := by
        rw [hzero] at hrest
        exact (Nat.div_eq_zero_iff_lt (Nat.two_pow_pos k)).1 hrest.symm
      rwa [Nat.mod_eq_of_lt hlt] at hfront
    · next hne =>
      have hnext : rest / 2 = steps / 2 ^ (k + 1) := by
        rw [hrest, Nat.div_div_eq_div_mul, pow_succ]
      have hmod : steps % 2 ^ (k + 1) = steps % 2 ^ k + 2 ^ k * (rest % 2) := by
        rw [hrest, Nat.mod_pow_succ]
      refine ih (rest / 2) (by omega) hnext ?_ fun hmore => ?_
      · rw [hmod]
        split
        -- the base is a factor exactly if the digit `k` is set
        · next hodd =>
          have hbit : steps.testBit k := by
            rw [Nat.testBit_eq_decide_div_mod_eq, ← hrest, hodd]
            rfl
          rw [hodd, mul_one, pow_add]
          exact hfront.mul (hbase hne) (hexact.factor k hbit)
        · next heven =>
          rwa [show rest % 2 = 0 by omega, mul_zero, add_zero]
      -- only a square that some later digit asks for has to be exact
      · have hle : 2 ^ (k + 1) ≤ steps := by
          rw [hnext] at hmore
          exact (Nat.div_ne_zero_iff.1 hmore).2
        rw [pow_succ, mul_two, pow_add]
        exact (hbase hne).mul (hbase hne) (hexact.square k hle)

theorem holds_powerBySquaring {steps : ℕ} (hm : m.Holds a) (hexact : PowersExactly a steps) :
    (m.powerBySquaring steps).Holds (a ^ steps) := by
  rw [powerBySquaring, hm.height]
  refine holds_powerLoop (k := 0) hexact (by simp) ?_ fun _ => by simpa using hm
  simpa [Nat.mod_one] using holds_identity n

/-! ## Whole exponents -/

section Exponent

variable {p : Float} {k : ℕ}

/-- A power with an exponent that is whole and not negative needs no decomposition. -/
theorem power_eq_powerBySquaring [Routines] (hsquare : m.height = m.width)
    (hp : HasValue p (k : ℕ)) :
    m.power p = .ok (m.powerBySquaring (min k (wordCount - 1))) := by
  simp only [power, requireSquare, if_pos hsquare, hp.isFinite, hp.isWhole,
    if_neg (hp.not_lt_zero (Nat.cast_nonneg k)), hp.toWord]
  rfl

end Exponent

theorem Holds.unique (ha : m.Holds a) (hb : m.Holds b) : a = b := by
  ext i j
  have hsame := (ha.entry i j).value.symm.trans (hb.entry i j).value
  exact_mod_cast hsame

theorem powersExactly_neg_one (steps : ℕ) : PowersExactly (-1 : IntegerMatrix 1) steps := by
  have hforms : ∀ k l, FormsExactly ((-1 : IntegerMatrix 1) ^ k) ((-1) ^ l) := by
    intro k l
    refine formsExactly_of_sum_abs_lt ?_
    rcases neg_one_pow_eq_or (IntegerMatrix 1) k with hk | hk <;>
      rcases neg_one_pow_eq_or (IntegerMatrix 1) l with hl | hl <;> rw [hk, hl] <;> decide
  exact ⟨fun k _ => hforms _ _, fun k _ => hforms _ _⟩

theorem power_holds [Routines] {p : Float} {k : ℕ} (hm : m.Holds a)
    (hp : HasValue p (k : ℕ)) (hexact : PowersExactly a (min k (wordCount - 1))) :
    ∃ r, m.power p = .ok r ∧ r.Holds (a ^ min k (wordCount - 1)) :=
  ⟨_, power_eq_powerBySquaring (hm.height.trans hm.width.symm) hp,
    holds_powerBySquaring hm hexact⟩

/-- A whole power of a matrix of integers is exact as long as the products on the way are:
it has as many factors as the exponent says, if these are less than the number of words,
and else as the largest word says. -/
theorem power_of_hasValue [Routines] {p : Float} {k : ℕ} (hm : m.Holds a)
    (hp : HasValue p (k : ℕ)) (hexact : PowersExactly a (min k (wordCount - 1))) :
    ∃ r, m.power p = .ok r ∧ r.Holds (a ^ min k (wordCount - 1)) ∧
      (r.Holds (a ^ k) ↔ k < wordCount ∨ a ^ k = a ^ (wordCount - 1)) := by
  obtain ⟨r, hr, hpower⟩ := power_holds hm hp hexact
  refine ⟨r, hr, hpower, ?_⟩
  rcases Nat.lt_or_ge k wordCount with hlt | hge
  · rw [min_eq_left (Nat.le_sub_one_of_lt hlt)] at hpower
    exact iff_of_true hpower (.inl hlt)
  · rw [min_eq_right ((Nat.sub_le wordCount 1).trans hge)] at hpower
    constructor
    · exact fun hk => .inr (hk.unique hpower)
    · rintro (hlt | hsame)
      · exact absurd hlt hge.not_gt
      · rwa [hsame]

/-- The fifth power of the matrix of the Fibonacci numbers. -/
theorem power_fibonacci :
    ∃ r, (ofRows 2 [[1, 1], [1, 0]] : Matrix Float).power 5 = .ok r ∧
      r.Holds !![8, 5; 5, 3] := by
  have hm : (ofRows 2 [[1, 1], [1, 0]] : Matrix Float).Holds !![1, 1; 1, 0] :=
    ⟨rfl, rfl, by
      intro i j
      fin_cases i <;> fin_cases j <;> exact ⟨by decide +kernel, by decide +kernel⟩⟩
  have hp : HasValue 5 (5 : ℕ) := ⟨by decide +kernel, by decide +kernel⟩
  have hsteps : min 5 (wordCount - 1) = 5 := by decide
  have hexact : PowersExactly (!![1, 1; 1, 0] : IntegerMatrix 2) 5 := by
    constructor
    · intro k hk
      have hlt : k < 2 := by
        by_contra hge
        have := Nat.pow_le_pow_right two_pos (show 3 ≤ k + 1 by omega)
        omega
      refine formsExactly_of_sum_abs_lt ?_
      interval_cases k <;> decide +kernel
    · intro k hk
      have hlt : k < 3 := by
        by_contra hge
        have := Nat.pow_le_pow_right two_pos (not_lt.1 hge)
        rw [Nat.testBit_eq_decide_div_mod_eq, Nat.div_eq_of_lt (by omega)] at hk
        exact absurd hk (by decide)
      refine formsExactly_of_sum_abs_lt ?_
      interval_cases k <;> decide +kernel
  obtain ⟨r, hr, hholds, -⟩ := power_of_hasValue hm hp (hsteps.symm ▸ hexact)
  refine ⟨r, hr, ?_⟩
  rw [hsteps] at hholds
  convert hholds using 1
  decide +kernel

/-- The power of `-1` whose exponent is the number of words is `1`, but the power that is
formed has one factor less. -/
theorem power_neg_one :
    (ofRows 1 [[-1]] : Matrix Float).Holds (-1 : IntegerMatrix 1) ∧
      HasValue 18446744073709551616 (wordCount : ℕ) ∧
      PowersExactly (-1 : IntegerMatrix 1) wordCount ∧
      ∃ r, (ofRows 1 [[-1]] : Matrix Float).power 18446744073709551616 = .ok r ∧
        r.Holds (-1 : IntegerMatrix 1) ∧ ¬r.Holds ((-1 : IntegerMatrix 1) ^ wordCount) := by
  have hm : (ofRows 1 [[-1]] : Matrix Float).Holds (-1 : IntegerMatrix 1) :=
    ⟨rfl, rfl, by
      intro i j
      fin_cases i
      fin_cases j
      exact ⟨by decide +kernel, by decide +kernel⟩⟩
  have hp : HasValue 18446744073709551616 (wordCount : ℕ) :=
    ⟨by decide +kernel, by decide +kernel⟩
  have hodd : Odd (min wordCount (wordCount - 1)) := by decide
  have heven : Even wordCount := by decide
  obtain ⟨r, hr, hholds⟩ := power_holds hm hp (powersExactly_neg_one _)
  rw [hodd.neg_one_pow] at hholds
  refine ⟨hm, hp, powersExactly_neg_one _, r, hr, hholds, fun hone => ?_⟩
  rw [heven.neg_one_pow] at hone
  exact absurd (hone.unique hholds) (by decide)

end MatrixCalculator.Matrix
