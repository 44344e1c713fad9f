import MatrixCalculator.Factorial
import MatrixCalculator.Proofs.Numeral.Comparison
import MatrixCalculator.Proofs.Numeral.Written
import MatrixCalculator.Proofs.Outcome
import MatrixCalculator.Scalar.Evaluation

/-!
# Factorials as numerals

The text of a factorial is a numeral, and it denotes the very double that the factorial of
a value is.
-/

namespace MatrixCalculator

open Numeral Outcome

namespace Factorial

variable {n : Nat} {product : Text}

theorem exactValue?_of_lt (hn : lastFinite < n) : exactValue? n = none := by
  rw [exactValue?, if_neg]
  rw [lastFinite, lastExact] at *
  omega

theorem ofNat_of_lt (hn : lastFinite < n) : ofNat n = .error (.factorialOverflow (digitsOf n)) := by
  rw [ofNat, exactValue?_of_lt hn]
  exact if_pos hn

theorem write_of_lt (hn : lastFinite < n) : write n = .error (.factorialOverflow (digitsOf n)) := by
  rw [write, exactValue?_of_lt hn, ofNat_of_lt hn]
  rfl

theorem le_lastFinite_of_write (hproduct : write n = .ok product) : n ≤ lastFinite := by
  by_contra hlarge
  rw [write_of_lt (Nat.lt_of_not_le hlarge)] at hproduct
  cases hproduct

theorem ofNat_of_le (hn : n ≤ lastExact) : ofNat n = .ok (nearest (Factorial.product n)) := by
  rw [ofNat, exactValue?, if_pos hn]

/-- The numbers whose factorials are doubles and not exact. -/
def roundedRange : List Nat := List.range' (lastExact + 1) (lastFinite - lastExact)

theorem mem_roundedRange_iff : n ∈ roundedRange ↔ lastExact < n ∧ n ≤ lastFinite := by
  simp only [roundedRange, List.mem_range'_1, lastExact, lastFinite]
  omega

theorem ofNat_of_mem_roundedRange (hn : n ∈ roundedRange) : ofNat n = .ok (rounded n) := by
  rw [mem_roundedRange_iff] at hn
  rw [ofNat, exactValue?, if_neg (Nat.not_le.2 hn.1)]
  exact if_neg (Nat.not_lt.2 hn.2)

/-- The rounded factorials are finite and large. -/
theorem rounded_spec : ∀ n ∈ roundedRange,
    (rounded n).isFinite = true ∧ isNegative (rounded n) = false ∧
      ¬(rounded n).abs < snapBound := by
  decide +kernel

/-- A written factorial is a numeral of the factorial. -/
theorem exists_spelling (hproduct : write n = .ok product) :
    ∃ s : Spelling, s.text = product ∧ ofNat n = .ok s.value := by
  by_cases hexact : n ≤ lastExact
  · have hdigits : digitsOf (Factorial.product n) ≠ [] := Nat.toDigits_ne_nil
    refine ⟨.ofDigits ⟨digitsOf (Factorial.product n), hdigits, fun c hc =>
      isDigit_of_mem_digitsOf hc⟩, ?_, ?_⟩
    · rw [write, exactValue?, if_pos hexact] at hproduct
      rw [Spelling.text_ofDigits]
      exact Except.ok.inj hproduct
    · rw [ofNat_of_le hexact, Spelling.value, Decimal.toDouble_eq_nearest]
      simp [Spelling.decimal, Spelling.ofDigits, Spelling.fractionDigits, Decimal.toRat,
        ofDigits_digitsOf]
  · have hmem : n ∈ roundedRange :=
      mem_roundedRange_iff.2 ⟨Nat.lt_of_not_le hexact, le_lastFinite_of_write hproduct⟩
    have hvalue := ofNat_of_mem_roundedRange hmem
    obtain ⟨hbounded, hpositive, hlarge⟩ := rounded_spec n hmem
    obtain ⟨s, htext, hshown⟩ := spellsDouble_write hbounded
    rw [shown, if_neg hlarge] at hshown
    have hsign : s.negative = false := by rw [← s.isNegative_value, hshown, hpositive]
    rw [SignedSpelling.text, hsign, if_neg Bool.false_ne_true] at htext
    rw [SignedSpelling.value, hsign, if_neg Bool.false_ne_true] at hshown
    rw [write, exactValue?, if_neg hexact, hvalue, map_ok] at hproduct
    exact ⟨s.magnitude, htext.trans (Except.ok.inj hproduct), by rw [hvalue, hshown]⟩

/-! ## Factorials of doubles -/

variable {x y : Float}

theorem factorialOf_of_hasValue (hx : HasValue x n) :
    Scalar.factorialOf x = ofNat (min n (wordCount - 1)) := by
  have hpositive := hx.not_lt_zero (Nat.cast_nonneg n)
  rw [Scalar.factorialOf, if_neg (by simp [hpositive, hx.isWhole]), hx.toWord]

theorem min_largestWord (hn : n ≤ lastFinite) : min n (wordCount - 1) = n :=
  min_eq_left (hn.trans (by decide))

theorem factorialOf_nearest (hn : n ≤ lastFinite) :
    Scalar.factorialOf (nearest (n : Rat)) = ofNat n := by
  have hexact := (representable_natCast (hn.trans_lt (by decide))).isExact
  rw [factorialOf_of_hasValue hexact.hasValue, min_largestWord hn]

/-- The doubles that have a factorial are the whole numbers from 0 to 170. -/
theorem factorialOf_eq_ok_iff :
    Scalar.factorialOf x = .ok y ↔ ∃ n ≤ 170, HasValue x (n : ℕ) ∧ ofNat n = .ok y := by
  constructor
  · intro hok
    by_cases hx : ∃ n : ℕ, HasValue x n
    · obtain ⟨n, hx⟩ := hx
      rw [factorialOf_of_hasValue hx] at hok
      have hword : min n (wordCount - 1) ≤ lastFinite := by
        by_contra hlarge
        rw [ofNat_of_lt (Nat.lt_of_not_le hlarge)] at hok
        cases hok
      -- the largest word has no factorial, so the number is not cut
      have hn : n ≤ lastFinite := (min_le_iff.1 hword).resolve_right (by decide)
      rw [min_largestWord hn] at hok
      exact ⟨n, hn, hx, hok⟩
    · rw [exists_hasValue_iff] at hx
      rw [Scalar.factorialOf, if_pos (by grind)] at hok
      cases hok
  · rintro ⟨n, hn, hx, hok⟩
    rw [factorialOf_of_hasValue hx, min_largestWord hn, hok]

end Factorial

end MatrixCalculator
