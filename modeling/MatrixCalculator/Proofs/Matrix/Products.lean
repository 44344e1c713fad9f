import MatrixCalculator.Proofs.Matrix.Entries
import MatrixCalculator.Proofs.Numeral.Arithmetic

/-!
# Products of matrices of integers

A product of matrices is added up entry by entry, in one of two ways.  If the entries are
integers, and all that is formed on the way to the entries of the product is representable
as well, then neither way rounds anything, and the product holds the exact integers.
-/

/-- A square matrix of integers, with exact sums and products. -/
abbrev IntegerMatrix (n : ℕ) : Type := Matrix (Fin n) (Fin n) ℤ

namespace MatrixCalculator

open Numeral

def Numeral.RepresentableInt (z : ℤ) : Prop := Representable |(z : ℚ)|

namespace Matrix

variable {n : ℕ} {m m' : Matrix Float} {a b : IntegerMatrix n}

/-- Whether the entries of a matrix of doubles are given integers. -/
structure Holds (m : Matrix Float) (a : IntegerMatrix n) : Prop where
  height : m.height = n
  width : m.width = n
  entry : ∀ i j : Fin n, HasValue (m.entry i j) (a i j : ℤ)

/-- The sum of the first terms of an entry of a product. -/
def partialEntry (a b : IntegerMatrix n) (i j : Fin n) (count : ℕ) : ℤ :=
  ∑ k ∈ Finset.univ.filter fun k : Fin n => (k : ℕ) < count, a i k * b k j

/-- Whether all that is formed for the entries of a product is representable: the
products of two entries, and their sums from the first one on. -/
def FormsExactly (a b : IntegerMatrix n) : Prop :=
  ∀ i j, (∀ k, RepresentableInt (a i k * b k j)) ∧
    ∀ count, RepresentableInt (partialEntry a b i j count)

/-! ## Sums of terms -/

theorem partialEntry_zero (i j : Fin n) : partialEntry a b i j 0 = 0 := by
  simp [partialEntry]

theorem partialEntry_succ (i j k : Fin n) :
    partialEntry a b i j (k + 1) = partialEntry a b i j k + a i k * b k j := by
  have hinsert : Finset.univ.filter (fun l : Fin n => (l : ℕ) < k + 1) =
      insert k (Finset.univ.filter fun l : Fin n => (l : ℕ) < k) := by
    ext l
    simp only [Finset.mem_filter, Finset.mem_univ, true_and, Finset.mem_insert, Fin.ext_iff]
    omega
  rw [partialEntry, hinsert, Finset.sum_insert (by simp), add_comm]
  rfl

theorem partialEntry_all (i j : Fin n) : partialEntry a b i j n = (a * b) i j := by
  simp [partialEntry, Matrix.mul_apply]

theorem sum_concat {xs : List Float} (hne : xs ≠ []) (x : Float) :
    sum (xs ++ [x]) = sum xs + x := by
  cases xs with
  | nil => exact absurd rfl hne
  | cons y ys => simp [sum]

theorem representableInt_of_abs_lt {z : ℤ} (hz : |z| < 2 * binade) : RepresentableInt z := by
  obtain ⟨k, hk⟩ := Int.eq_ofNat_of_zero_le (abs_nonneg z)
  have hcast : |(z : ℚ)| = (k : ℕ) := by exact_mod_cast hk
  rw [RepresentableInt, hcast]
  exact representable_natCast (by omega)

/-- Terms whose magnitudes have a sum below the first integer that is no double. -/
theorem formsExactly_of_sum_abs_lt
    (hlt : ∀ i j, ∑ k, |a i k * b k j| < (2 * binade : ℕ)) : FormsExactly a b := by
  intro i j
  refine ⟨fun k => representableInt_of_abs_lt ?_, fun count => representableInt_of_abs_lt ?_⟩
  · have hterm : |a i k * b k j| ≤ ∑ k, |a i k * b k j| :=
      Finset.single_le_sum (f := fun k => |a i k * b k j|) (fun _ _ => abs_nonneg _)
        (Finset.mem_univ k)
    exact_mod_cast hterm.trans_lt (hlt i j)
  · have hpartial : |partialEntry a b i j count| ≤ ∑ k, |a i k * b k j| :=
      (Finset.abs_sum_le_sum_abs _ _).trans
        (Finset.sum_le_sum_of_subset_of_nonneg (Finset.filter_subset _ _)
          fun _ _ _ => abs_nonneg _)
    exact_mod_cast hpartial.trans_lt (hlt i j)

section Entries

variable {f g : ℕ → Float} {i j : Fin n} {count : ℕ}

theorem representable_partialEntry (hforms : FormsExactly a b) (hcount : count < n) :
    Representable |(partialEntry a b i j count : ℚ) + (a i ⟨count, hcount⟩ : ℚ) *
      (b ⟨count, hcount⟩ j : ℚ)| := by
  have hsum := (hforms i j).2 (count + 1)
  rw [partialEntry_succ (k := ⟨count, hcount⟩), RepresentableInt] at hsum
  exact_mod_cast hsum

theorem representable_term (hforms : FormsExactly a b) (k : Fin n) :
    Representable |(a i k : ℚ) * (b k j : ℚ)| := by
  have hterm := (hforms i j).1 k
  rw [RepresentableInt] at hterm
  exact_mod_cast hterm

/-- Terms added up from the first one. -/
theorem hasValue_dot (hf : ∀ k : Fin n, HasValue (f k) (a i k : ℤ))
    (hg : ∀ k : Fin n, HasValue (g k) (b k j : ℤ)) (hforms : FormsExactly a b)
    (hcount : count ≤ n) :
    HasValue (dot ((List.range count).map f) ((List.range count).map g))
      (partialEntry a b i j count : ℤ) := by
  have hzip : ∀ count, List.zipWith (· * ·) ((List.range count).map f) ((List.range count).map g) =
      (List.range count).map fun k => f k * g k := by
    intro count
    rw [List.zipWith_map, List.zipWith_self]
  induction count with
  | zero =>
    rw [partialEntry_zero]
    exact_mod_cast isExact_zero.hasValue
  | succ count ih =>
    have hterm : HasValue (f count * g count) ((a i ⟨count, hcount⟩ : ℚ) * b ⟨count, hcount⟩ j) :=
      (hf ⟨count, hcount⟩).mul (hg ⟨count, hcount⟩) (representable_term hforms _)
    have hsum := partialEntry_succ (a := a) (b := b) i j ⟨count, hcount⟩
    rw [hsum, dot, hzip, List.range_succ, List.map_append, List.map_singleton]
    push_cast
    rcases Nat.eq_zero_or_pos count with rfl | hpos
    -- the first term is not added to anything
    · rw [partialEntry_zero]
      simpa [sum] using hterm
    · rw [sum_concat (by simpa using hpos.ne'), ← hzip]
      exact (ih (Nat.le_of_succ_le hcount)).add hterm (representable_partialEntry hforms hcount)

/-- Terms added up from zero, each of them in one operation. -/
theorem hasValue_accumulate (hf : ∀ k : Fin n, HasValue (f k) (a i k : ℤ))
    (hg : ∀ k : Fin n, HasValue (g k) (b k j : ℤ)) (hforms : FormsExactly a b)
    (hcount : count ≤ n) :
    HasValue (accumulate ((List.range count).map f) ((List.range count).map g))
      (partialEntry a b i j count : ℤ) := by
  induction count with
  | zero =>
    rw [partialEntry_zero]
    exact_mod_cast isExact_zero.hasValue
  | succ count ih =>
    have hsum := partialEntry_succ (a := a) (b := b) i j ⟨count, hcount⟩
    rw [hsum, accumulate, List.zip_map', List.range_succ, List.map_append, List.foldl_append,
      ← List.zip_map', ← accumulate]
    push_cast
    exact (hf ⟨count, hcount⟩).mulAdd (hg ⟨count, hcount⟩) (ih (Nat.le_of_succ_le hcount))
      (representable_term hforms _) (representable_partialEntry hforms hcount)

end Entries

/-! ## Products -/

/-- The product of matrices of integers holds the exact product. -/
theorem Holds.mul (hm : m.Holds a) (hm' : m'.Holds b) (hforms : FormsExactly a b) :
    (m * m').Holds (a * b) := by
  refine ⟨by rw [height_mul, hm.height], by rw [width_mul, hm'.width], fun i j => ?_⟩
  have hi : (i : ℕ) < m.height := hm.height ▸ i.isLt
  have hj : (j : ℕ) < m'.width := hm'.width ▸ j.isLt
  rw [entry_mul m m' hi hj, hm.width, hm'.height, entryProduct, ← partialEntry_all]
  split
  · exact hasValue_accumulate (hm.entry i) (fun k => hm'.entry k j) hforms le_rfl
  · exact hasValue_dot (hm.entry i) (fun k => hm'.entry k j) hforms le_rfl

theorem holds_identity (n : ℕ) : (identity n).Holds (1 : IntegerMatrix n) := by
  have hone : HasValue 1 1 := ⟨by decide, by decide +kernel⟩
  refine ⟨height_identity n, width_identity n, fun i j => ?_⟩
  rw [identity, diagonal, List.length_replicate, entry_ofFn _ i.isLt j.isLt, Matrix.one_apply]
  by_cases hij : i = j
  · simpa [hij] using hone
  · have hne : (i : ℕ) ≠ j := fun h => hij (Fin.ext h)
    rw [if_neg hne, if_neg hij]
    exact_mod_cast isExact_zero.hasValue

end Matrix

end MatrixCalculator
