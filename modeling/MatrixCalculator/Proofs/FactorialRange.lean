import MatrixCalculator.Proofs.Factorial
import Mathlib.Data.Nat.Factorial.Basic

/-!
# Where factorials are exact and where they end

The exact factorials are those of a running product that is given up at the first factor by
which it leaves the words of 128 bits: no later factor makes it smaller, so it never comes
back.  Behind them the factorial goes on as a double, and it ends at the same number as its
text does.
-/

namespace MatrixCalculator.Factorial

open Numeral Outcome
open scoped Nat

/-- How many words of 128 bits there are. -/
def wideCount : ℕ := 2 ^ 128

/-- The product of two numbers, if it is a word of 128 bits. -/
def productWithin? (x y : ℕ) : Option ℕ := if x * y < wideCount then some (x * y) else none

/-- The product of the numbers from two up to `n`, one factor after the other, as long as all
products are words of 128 bits. -/
def runningProduct? (n : ℕ) : Option ℕ := (List.range' 2 (n - 1)).foldlM productWithin? 1

/-! ## The running product -/

/-- The factors behind `k` complete the factorial of `k`, or the product is given up on the
way. -/
theorem foldlM_productWithin? {k : ℕ} (hk : k ! < wideCount) (count : ℕ) :
    (List.range' (k + 1) count).foldlM productWithin? (k !) =
      if (k + count) ! < wideCount then some ((k + count) !) else none := by
  induction count generalizing k with
  | zero => exact (if_pos hk).symm
  | succ count ih =>
    have hfactor : productWithin? (k !) (k + 1) =
        if (k + 1) ! < wideCount then some ((k + 1) !) else none := by
      rw [productWithin?, Nat.mul_comm, ← Nat.factorial_succ]
    have hcount : k + (count + 1) = k + 1 + count := by omega
    rw [List.range'_succ, List.foldlM_cons, hfactor, hcount]
    by_cases hnext : (k + 1) ! < wideCount
    · rw [if_pos hnext]
      exact ih hnext
    -- a product that has left the words stays outside
    · have hlater : ¬(k + 1 + count) ! < wideCount := fun hlt =>
        hnext ((Nat.factorial_le (Nat.le_add_right (k + 1) count)).trans_lt hlt)
      rw [if_neg hnext, if_neg hlater]
      rfl

theorem runningProduct?_eq (n : ℕ) :
    runningProduct? n = if n ! < wideCount then some (n !) else none := by
  cases n with
  | zero => rfl
  | succ n =>
    have hcount := foldlM_productWithin? (k := 1) (by decide) n
    rw [Nat.add_comm 1 n] at hcount
    exact hcount

theorem product_eq_factorial (n : ℕ) : product n = n ! := by
  induction n with
  | zero => rfl
  | succ n ih => rw [product, ih, Nat.factorial_succ]

theorem le_lastExact_iff (n : ℕ) : n ≤ lastExact ↔ n ! < wideCount := by
  constructor
  · intro hle
    exact (Nat.factorial_le hle).trans_lt (by decide)
  · intro hlt
    by_contra hlarge
    have hnext : (lastExact + 1) ! < wideCount :=
      (Nat.factorial_le (Nat.lt_of_not_le hlarge)).trans_lt hlt
    exact absurd hnext (by decide)

theorem exactValue?_eq (n : ℕ) :
    exactValue? n = if n ! < wideCount then some (n !) else none := by
  rw [exactValue?, product_eq_factorial]
  exact if_congr (le_lastExact_iff n) rfl rfl

/-! ## Factorials as doubles and as texts -/

variable {n : ℕ}

theorem exists_write_of_le (hn : n ≤ lastFinite) : ∃ text, write n = .ok text := by
  rw [write]
  split
  · exact ⟨_, rfl⟩
  · next hnone =>
    rw [ofNat, hnone]
    exact ⟨_, by rw [if_neg (Nat.not_lt.2 hn), map_ok]⟩

/-- The digits of a number are read as the number. -/
theorem readDecimal?_digitsOf (n : ℕ) : readDecimal? (digitsOf n) = some ⟨n, 0⟩ := by
  have hread := (Spelling.ofDigits ⟨digitsOf n, Nat.toDigits_ne_nil, fun _ =>
    isDigit_of_mem_digitsOf⟩).readDecimal?_text
  rw [Spelling.text_ofDigits] at hread
  rw [hread]
  simp [Spelling.decimal, Spelling.ofDigits, Spelling.fractionDigits, ofDigits_digitsOf]

/-- What the text of a factorial denotes is nearest to the factorial. -/
theorem exists_readDecimal?_write (hn : n ≤ lastFinite) :
    ∃ text d, write n = .ok text ∧ readDecimal? text = some d ∧
      ofNat n = .ok (nearest d.toRat) := by
  obtain ⟨text, htext⟩ := exists_write_of_le hn
  obtain ⟨s, rfl, hvalue⟩ := exists_spelling htext
  refine ⟨s.text, s.decimal, htext, s.readDecimal?_text, ?_⟩
  rw [hvalue, Spelling.value, Decimal.toDouble_eq_nearest]

theorem write_of_factorial_lt (hlt : n ! < wideCount) : write n = .ok (digitsOf (n !)) := by
  rw [write, exactValue?_eq, if_pos hlt]

theorem ofNat_eq_error_iff {cause : Fault} :
    ofNat n = .error cause ↔ lastFinite < n ∧ cause = .factorialOverflow (digitsOf n) := by
  rcases Nat.lt_or_ge lastFinite n with hlarge | hsmall
  · rw [ofNat_of_lt hlarge, Except.error.injEq, eq_comm]
    exact (and_iff_right hlarge).symm
  · obtain ⟨text, d, -, -, hvalue⟩ := exists_readDecimal?_write hsmall
    rw [hvalue]
    exact iff_of_false nofun fun h => Nat.not_lt.2 hsmall h.1

theorem write_eq_error_iff {cause : Fault} :
    write n = .error cause ↔ lastFinite < n ∧ cause = .factorialOverflow (digitsOf n) := by
  rcases Nat.lt_or_ge lastFinite n with hlarge | hsmall
  · rw [write_of_lt hlarge, Except.error.injEq, eq_comm]
    exact (and_iff_right hlarge).symm
  · obtain ⟨text, htext⟩ := exists_write_of_le hsmall
    rw [htext]
    exact iff_of_false nofun fun h => Nat.not_lt.2 hsmall h.1

/-! ## Rounded factorials -/

/-- One more factor is one more product of doubles. -/
theorem rounded_succ (hn : 1 ≤ n) : rounded (n + 1) = rounded n * Float.ofNat (n + 1) := by
  obtain ⟨k, rfl⟩ := Nat.exists_eq_add_of_le' hn
  have hlast : 2 + 1 * k = k + 1 + 1 := by omega
  rw [rounded, rounded, Nat.add_sub_cancel, Nat.add_sub_cancel, List.range'_concat,
    List.foldl_append, hlast]
  rfl

/-- Whether a double is a number up to a relative error of `2 ^ -50`. -/
def IsNear (x : Float) (whole : ℕ) : Prop :=
  x.isFinite = true ∧ |value x - whole| * 2 ^ 50 ≤ whole

instance (x : Float) (whole : ℕ) : Decidable (IsNear x whole) :=
  inferInstanceAs (Decidable (_ ∧ _))

theorem isNear_nearest : ∀ n ∈ List.range (lastExact + 1),
    IsNear (nearest (product n)) (product n) := by
  decide +kernel

theorem isNear_rounded : ∀ n ∈ roundedRange, IsNear (rounded n) (product n) := by
  decide +kernel

/-- The rounding errors of all the products together stay below one part in `2 ^ 50`. -/
theorem exists_isNear_factorial (hn : n ≤ lastFinite) :
    ∃ y, ofNat n = .ok y ∧ IsNear y (n !) := by
  rw [← product_eq_factorial]
  by_cases hexact : n ≤ lastExact
  · have hmem : n ∈ List.range (lastExact + 1) := List.mem_range.2 (Nat.lt_succ_of_le hexact)
    exact ⟨_, ofNat_of_le hexact, isNear_nearest n hmem⟩
  · have hmem := mem_roundedRange_iff.2 ⟨Nat.lt_of_not_le hexact, hn⟩
    exact ⟨_, ofNat_of_mem_roundedRange hmem, isNear_rounded n hmem⟩

/-- A factorial is exact exactly if it is a word of 128 bits, which is where the running
product ends.  It fails together with its text, beyond the last factorial that is a finite
double, and otherwise is the double nearest to what the text denotes, which is the factorial
itself, in all its digits, where it is exact. -/
theorem factorial_range (n : ℕ) :
    (∀ whole, exactValue? n = some whole ↔ n ! < 2 ^ 128 ∧ whole = n !) ∧
      exactValue? n = runningProduct? n ∧
      (∀ cause, ofNat n = .error cause ↔ 170 < n ∧ cause = .factorialOverflow (digitsOf n)) ∧
      (∀ cause, write n = .error cause ↔ 170 < n ∧ cause = .factorialOverflow (digitsOf n)) ∧
      (n ≤ 170 → ∃ text d, write n = .ok text ∧ readDecimal? text = some d ∧
        ofNat n = .ok (nearest d.toRat) ∧
        (n ! < 2 ^ 128 → text = digitsOf (n !) ∧ d.toRat = n !)) := by
  refine ⟨fun whole => ?_, ?_, fun _ => ofNat_eq_error_iff, fun _ => write_eq_error_iff,
    fun hn => ?_⟩
  · rw [exactValue?_eq]
    change _ ↔ n ! < wideCount ∧ _
    by_cases hlt : n ! < wideCount <;> simp [hlt, eq_comm]
  · rw [exactValue?_eq, runningProduct?_eq]
  · obtain ⟨text, d, htext, hd, hvalue⟩ := exists_readDecimal?_write hn
    refine ⟨text, d, htext, hd, hvalue, fun hlt => ?_⟩
    have hdigits : text = digitsOf (n !) :=
      Except.ok.inj (htext.symm.trans (write_of_factorial_lt hlt))
    rw [hdigits, readDecimal?_digitsOf, Option.some.injEq] at hd
    exact ⟨hdigits, by rw [← hd, Decimal.toRat, zpow_zero, mul_one]⟩

/-- The factorial of 34 is the last exact one. -/
theorem factorial_range_34 :
    (34 : ℕ) ≤ 170 ∧ 34 ! < 2 ^ 128 ∧ ¬35 ! < 2 ^ 128 ∧
      write 34 = .ok "295232799039604140847618609643520000000".toList := by
  have hlt : 34 ! < 2 ^ 128 := by decide
  obtain ⟨text, d, htext, -, -, hexact⟩ := (factorial_range 34).2.2.2.2 (by decide)
  refine ⟨by decide, hlt, by decide, htext.trans ?_⟩
  rw [(hexact hlt).1]
  rfl

end MatrixCalculator.Factorial
