import MatrixCalculator.Proofs.Matrix.Entries
import Mathlib.Data.Matrix.Mul

/-!
# Powers by repeated squaring

Where sums and products are exact, the entries of a matrix take part in the products of
square matrices as these are defined, however the entries of a product are added up.  So
repeated squaring can be judged in any monoid: each round moves the last binary digit of the
number of steps from the power of the base to the product in front, and the factors meet in
the right order because a base commutes with its own powers.
-/

/-- A square matrix over a semiring, with its sums and products. -/
abbrev SquareMatrix (n : ℕ) (R : Type) : Type := Matrix (Fin n) (Fin n) R

namespace MatrixCalculator.Matrix

/-! ## Rounds in a monoid -/

section Rounds

variable {M N : Type}

/-- What the rounds leave is the product in front, behind it the power of the base. -/
theorem powerLoop_eq_mul_pow [Monoid M] (front base : M) (steps : ℕ) :
    powerLoop front base steps = front * base ^ steps := by
  induction steps using Nat.strong_induction_on generalizing front base with
  | h steps ih =>
    by_cases hsteps : steps = 0
    · rw [hsteps, powerLoop_zero, pow_zero, mul_one]
    · have hdigit : (if steps % 2 = 1 then front * base else front) =
          front * base ^ (steps % 2) := by
        rcases Nat.mod_two_eq_zero_or_one steps with heven | hodd
        · rw [heven, if_neg Nat.zero_ne_one, pow_zero, mul_one]
        · rw [hodd, if_pos rfl, pow_one]
      calc powerLoop front base steps
          = front * base ^ (steps % 2) * (base * base) ^ (steps / 2) := by
            rw [powerLoop_of_ne hsteps, ih (steps / 2) (by omega), hdigit]
        _ = front * base ^ (steps % 2 + 2 * (steps / 2)) := by
            rw [← pow_two, ← pow_mul, mul_assoc, ← pow_add]
        _ = front * base ^ steps := by rw [Nat.mod_add_div]

/-- The rounds of a power, with a square only where a later round asks for it. -/
def powerRounds [Mul M] (front base : M) (steps : ℕ) : M :=
  if steps = 0 then front
  else powerRounds (if steps % 2 = 1 then front * base else front)
    (if steps / 2 = 0 then base else base * base) (steps / 2)
termination_by steps

/-- The square behind the last round is never looked at. -/
theorem powerRounds_eq_powerLoop [Mul M] (front base : M) (steps : ℕ) :
    powerRounds front base steps = powerLoop front base steps := by
  induction steps using Nat.strong_induction_on generalizing front base with
  | h steps ih =>
    by_cases hsteps : steps = 0
    · rw [hsteps, powerLoop_zero, powerRounds, if_pos rfl]
    · rw [powerRounds, if_neg hsteps, ih (steps / 2) (by omega), powerLoop_of_ne hsteps]
      by_cases hlast : steps / 2 = 0
      · rw [hlast, powerLoop_zero, powerLoop_zero]
      · rw [if_neg hlast]

/-- A map that keeps products keeps the rounds. -/
theorem map_powerLoop [Mul M] [Mul N] {f : M → N} (hmul : ∀ x y, f (x * y) = f x * f y)
    (front base : M) (steps : ℕ) :
    powerLoop (f front) (f base) steps = f (powerLoop front base steps) := by
  induction steps using Nat.strong_induction_on generalizing front base with
  | h steps ih =>
    by_cases hsteps : steps = 0
    · rw [hsteps, powerLoop_zero, powerLoop_zero]
    · rw [powerLoop_of_ne hsteps, powerLoop_of_ne hsteps, ← hmul, ← hmul, ← apply_ite f,
        ih (steps / 2) (by omega)]

end Rounds

/-! ## Exact products -/

variable {R : Type} [Semiring R] {n : ℕ} {m : Matrix R}

theorem sum_eq_listSum (xs : List R) : sum xs = xs.sum := by
  cases xs with
  | nil => rfl
  | cons x xs =>
    calc sum (x :: xs) = xs.foldl (· + ·) (x + 0) := by rw [sum, add_zero]
      _ = x + xs.foldl (· + ·) 0 := List.foldl_assoc
      _ = (x :: xs).sum := by rw [List.sum_cons, List.sum_eq_foldl]

theorem accumulate_eq_listSum (row column : List R) :
    accumulate row column = (List.zipWith (· * ·) row column).sum := by
  rw [← List.map_uncurry_zip_eq_zipWith, List.sum_eq_foldl, List.foldl_map]
  rfl

/-- Both ways to add up the entries of a product give the exact sum. -/
theorem entryProduct_eq_sum (a b : Matrix R) (f g : ℕ → R) (count : ℕ) :
    entryProduct a b ((List.range count).map f) ((List.range count).map g) =
      ∑ k : Fin count, f k * g k := by
  have hsum : (List.zipWith (· * ·) ((List.range count).map f) ((List.range count).map g)).sum =
      ∑ k : Fin count, f k * g k := by
    rw [List.zipWith_map, List.zipWith_self, ← Finset.sum_range fun k => f k * g k]
    rfl
  rw [entryProduct]
  split
  · rw [accumulate_eq_listSum, hsum]
  · rw [dot, sum_eq_listSum, hsum]

def ofSquare (a : SquareMatrix n R) : Matrix R :=
  ofFn n n fun i j => if h : i < n ∧ j < n then a ⟨i, h.1⟩ ⟨j, h.2⟩ else 0

/-- The entries of a matrix up to a height and a width. -/
def toSquare (n : ℕ) (m : Matrix R) : SquareMatrix n R := fun i j => m.entry i j

theorem toSquare_ofSquare (a : SquareMatrix n R) : (ofSquare a).toSquare n = a := by
  ext i j
  rw [toSquare, ofSquare, entry_ofFn _ i.isLt j.isLt, dif_pos ⟨i.isLt, j.isLt⟩]

/-- A matrix of the right shape is known by its entries. -/
theorem ofSquare_toSquare (hheight : m.height = n) (hwidth : m.width = n) :
    ofSquare (m.toSquare n) = m := by
  refine ext hwidth.symm ?_
  rw [rows_eq m, ofSquare, ofFn, hheight, hwidth]
  refine List.map_congr_left fun i hi => List.map_congr_left fun j hj => ?_
  rw [dif_pos ⟨List.mem_range.1 hi, List.mem_range.1 hj⟩, toSquare]

theorem ofSquare_one : ofSquare (1 : SquareMatrix n R) = identity n := by
  have hentries : (identity n : Matrix R).toSquare n = 1 := by
    ext i j
    rw [toSquare, identity, diagonal, List.length_replicate, entry_ofFn _ i.isLt j.isLt,
      Matrix.one_apply]
    simp [Fin.ext_iff]
  rw [← hentries, ofSquare_toSquare (height_identity n) (width_identity n)]

theorem ofSquare_mul (a b : SquareMatrix n R) : ofSquare (a * b) = ofSquare a * ofSquare b := by
  have hheight : (ofSquare a * ofSquare b).height = n := by
    rw [height_mul, ofSquare, height_ofFn]
  have hentries : (ofSquare a * ofSquare b).toSquare n = a * b := by
    ext i j
    have hrow : ∀ k : Fin n, (ofSquare a).entry i k = a i k :=
      fun k => congrFun (congrFun (toSquare_ofSquare a) i) k
    have hcolumn : ∀ k : Fin n, (ofSquare b).entry k j = b k j :=
      fun k => congrFun (congrFun (toSquare_ofSquare b) k) j
    rw [toSquare, entry_mul _ _ (by simp [ofSquare]) (by simp [ofSquare]),
      show (ofSquare a).width = n from rfl, show (ofSquare b).height = n from height_ofFn n n _,
      entryProduct_eq_sum, Matrix.mul_apply]
    exact Finset.sum_congr rfl fun k _ => by rw [hrow, hcolumn]
  rw [← hentries, ofSquare_toSquare hheight rfl]

/-! ## Powers -/

theorem powerBySquaring_ofSquare (a : SquareMatrix n R) (steps : ℕ) :
    (ofSquare a).powerBySquaring steps = ofSquare (a ^ steps) := by
  rw [powerBySquaring, show (ofSquare a).height = n from height_ofFn n n _, ← ofSquare_one,
    map_powerLoop ofSquare_mul, powerLoop_eq_mul_pow, one_mul]

/-- Factors one after the other. -/
theorem iterate_mul_ofSquare (a : SquareMatrix n R) (steps : ℕ) :
    (· * ofSquare a)^[steps] (identity n) = ofSquare (a ^ steps) := by
  have hstep : Function.Semiconj ofSquare (· * a) (· * ofSquare a) :=
    fun front => ofSquare_mul front a
  rw [← ofSquare_one, ← hstep.iterate_right steps 1, mul_right_iterate]
  simp only [one_mul]

/-- A power by repeated squaring is the matrix multiplied by itself so many times, the
identity without any step, whether or not a square is formed that no step asks for. -/
theorem powerBySquaring_eq_iterate (hheight : m.height = n) (hwidth : m.width = n) (steps : ℕ) :
    m.powerBySquaring steps = (· * m)^[steps] (identity n) ∧
      powerRounds (identity n) m steps = (· * m)^[steps] (identity n) ∧
      ofSquare (m.toSquare n ^ steps) = (· * m)^[steps] (identity n) := by
  have hm : ofSquare (m.toSquare n) = m := ofSquare_toSquare hheight hwidth
  have hpower : m.powerBySquaring steps = ofSquare (m.toSquare n ^ steps) := by
    rw [← powerBySquaring_ofSquare, hm]
  have hiterate : (· * m)^[steps] (identity n) = ofSquare (m.toSquare n ^ steps) := by
    rw [← iterate_mul_ofSquare, hm]
  have hrounds : powerRounds (identity n) m steps = m.powerBySquaring steps := by
    rw [powerRounds_eq_powerLoop, powerBySquaring, hheight]
  exact ⟨hpower.trans hiterate.symm, hrounds.trans (hpower.trans hiterate.symm), hiterate.symm⟩

/-- A matrix of sums and differences has twice the identity as its square. -/
theorem powerBySquaring_sums_differences :
    (ofRows 2 [[1, 1], [1, -1]] : Matrix ℤ).height = 2 ∧
      (ofRows 2 [[1, 1], [1, -1]] : Matrix ℤ).width = 2 ∧
      (ofRows 2 [[1, 1], [1, -1]] : Matrix ℤ).powerBySquaring 11 =
        ofRows 2 [[32, 32], [32, -32]] := by
  refine ⟨rfl, rfl, ?_⟩
  rw [(powerBySquaring_eq_iterate rfl rfl 11).1]
  exact ext rfl (by decide)

end MatrixCalculator.Matrix
