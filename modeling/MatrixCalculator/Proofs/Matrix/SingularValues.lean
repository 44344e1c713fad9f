import MatrixCalculator.Matrix.Singular
import MatrixCalculator.Proofs.Matrix.Routines
import Mathlib.Data.List.GetD
import Mathlib.Tactic

/-!
# How many singular values there are

The steps of the iteration write into the two diagonals and turn vectors on both sides, and
nothing else.  So what these four changes keep is kept by the whole iteration, in particular
the length of the diagonal and that of the right vectors.  A matrix has one singular value
for each row or each column, whichever there are fewer of, and one left and one right vector
for each value: the factors of a decomposition always fit together.
-/

namespace MatrixCalculator.Matrix

namespace Bidiagonal

variable {b result : Bidiagonal} {r : Rotation} {x y : Float} {i j last start : Nat}
  {P : Bidiagonal → Prop}

/-- Whether a property is kept by all that a step can do. -/
structure Kept (P : Bidiagonal → Prop) : Prop where
  setDiagonal : ∀ {b}, P b → ∀ i x, P (b.setDiagonal i x)
  setBeside : ∀ {b}, P b → ∀ i x, P (b.setBeside i x)
  turnLeft : ∀ {b}, P b → ∀ r i j, P (b.turnLeft r i j)
  turnRight : ∀ {b}, P b → ∀ r i j, P (b.turnRight r i j)

namespace Kept

/-! ## Steps -/

theorem clearRow (hP : Kept P) (hb : P b) (columns : List Nat) :
    P (clearRow i last columns x y b) := by
  induction columns generalizing x y b with
  | nil => exact hb
  | cons k columns ih =>
    rw [Bidiagonal.clearRow]
    split
    · exact hb
    · next length _ =>
      have hturned := hP.turnLeft (hP.setDiagonal hb (k + 1) length)
      dsimp only
      split
      · exact hturned _ _ _
      · exact ih (hP.setBeside (hturned _ _ _) _ _)

theorem clearRowFrom (hP : Kept P) (hb : P b) : P (b.clearRowFrom i last) :=
  hP.clearRow (hP.setBeside hb i 0) _

theorem clearColumn (hP : Kept P) (hb : P b) (rows : Nat) : P (clearColumn i rows x y b) := by
  induction rows generalizing x y b with
  | zero => exact hb
  | succ k ih =>
    rw [Bidiagonal.clearColumn]
    split
    · exact hb
    · next length _ =>
      have hturned := hP.turnRight (hP.setDiagonal hb k length)
      dsimp only
      split
      · exact hturned _ _ _
      · exact ih (hP.setBeside (hturned _ _ _) _ _)

theorem clearColumnFrom (hP : Kept P) (hb : P b) : P (b.clearColumnFrom i) :=
  hP.clearColumn (hP.setBeside hb i 0) _

theorem dropDiagonal (hP : Kept P) (hb : P b) : P (b.dropDiagonal i last) := by
  have hrow : P ((b.setDiagonal i 0).clearRowFrom i last) := hP.clearRowFrom (hP.setDiagonal hb i 0)
  rw [Bidiagonal.dropDiagonal]
  split
  · exact hrow
  · exact hP.clearColumnFrom hrow

/-! ## Rounds -/

theorem trimEnd (hP : Kept P) (hb : P b) : P (b.trimEnd last).1 := by
  induction last generalizing b with
  | zero => exact hb
  | succ m ih =>
    rw [Bidiagonal.trimEnd]
    split
    · exact ih (hP.setBeside hb m 0)
    split
    · exact ih (hP.dropDiagonal hb)
    split
    · exact ih (hP.clearColumnFrom (hP.setDiagonal hb (m + 1) 0))
    · exact hb

theorem blockStart (hP : Kept P) (hb : P b) : P (b.blockStart last start).1 := by
  induction start with
  | zero => exact hb
  | succ m ih =>
    rw [Bidiagonal.blockStart]
    split
    · exact hP.setBeside hb m 0
    split
    · exact hP.dropDiagonal hb
    · exact ih

theorem block (hP : Kept P) (hb : P b) : P (b.block last).1 := by
  have htrimmed : P (b.trimEnd last).1 := hP.trimEnd hb
  rw [Bidiagonal.block]
  split
  · next heq =>
    rw [heq] at htrimmed
    exact htrimmed
  · next heq =>
    rw [heq] at htrimmed
    exact hP.blockStart htrimmed

theorem chase (hP : Kept P) (hb : P b) (places : List Nat) :
    P (chase start last places x y b) := by
  induction places generalizing x y b with
  | nil => exact hb
  | cons k places ih =>
    rw [Bidiagonal.chase]
    split
    · exact hb
    · next length _ =>
      have hbeside : P (if start < k then b.setBeside (k - 1) length else b) := by
        split
        · exact hP.setBeside hb _ _
        · exact hb
      dsimp only
      refine ih (hP.turnLeft (hP.turnRight ?_ _ _ _) _ _ _)
      have hpair := fun head d' f' =>
        hP.setBeside (hP.setDiagonal (hP.setDiagonal hbeside k head) (k + 1) d') k f'
      split
      · exact hpair _ _ _
      · exact hP.setBeside (hpair _ _ _) _ _

theorem sweep (hP : Kept P) (hb : P b) : P (b.sweep start last) := hP.chase hb _

theorem splitPair (hP : Kept P) (hb : P b) : P (b.splitPair start) :=
  hP.turnRight (hP.turnLeft (hP.setBeside (hP.setDiagonal (hP.setDiagonal hb _ _) _ _) _ _) _ _ _)
    _ _ _

theorem rounds (hP : Kept P) (hb : P b) (fuel : Nat) : P (rounds fuel start last b) := by
  induction fuel generalizing start last b with
  | zero => exact hb
  | succ fuel ih =>
    rw [Bidiagonal.rounds]
    split
    · exact hb
    · split
      next heq =>
        refine ih (hP.block ?_)
        split at heq
        · cases heq
          exact hP.splitPair hb
        · cases heq
          exact hP.sweep hb

/-- What the steps keep holds of the diagonal form. -/
theorem diagonalize (hP : Kept P) (hb : P b) : P b.diagonalize := hP.rounds (hP.block hb) _

end Kept

/-- The steps write into the diagonal and never make it longer or shorter. -/
theorem kept_length_diagonal (n : Nat) : Kept fun b => b.diagonal.length = n where
  setDiagonal hb _ _ := List.length_set.trans hb
  setBeside hb _ _ := hb
  turnLeft hb _ _ _ := hb
  turnRight hb _ _ _ := hb

/-- There is a diagonal entry for each column. -/
theorem length_diagonal_ofColumns (down across : List Float → List Float → Float)
    (width height : Nat) (columns : List (List Float)) :
    (ofColumns down across width height columns).diagonal.length = width := by
  induction width generalizing height columns with
  | zero => rfl
  | succ width ih =>
    rw [ofColumns]
    dsimp only
    split
    · next hzero =>
      rw [hzero]
      rfl
    · rw [List.length_cons, ih]

end Bidiagonal

/-! ## Vectors of one length -/

variable {n : Nat} {vectors : List (List Float)}

theorem FormSquare.turnAt (hvectors : FormSquare n vectors) (r : Rotation) (i j : Nat) :
    FormSquare n (r.turnAt i j vectors) := by
  rw [Rotation.turnAt]
  split
  · next a b ha hb =>
    have hlength : a.length = n ∧ b.length = n :=
      ⟨hvectors.2 a (List.mem_of_getElem? ha), hvectors.2 b (List.mem_of_getElem? hb)⟩
    refine ⟨by rw [List.length_set, List.length_set, hvectors.1], fun v hv => ?_⟩
    rcases List.mem_or_eq_of_mem_set hv with hv | rfl
    · rcases List.mem_or_eq_of_mem_set hv with hv | rfl
      · exact hvectors.2 v hv
      · simp [Rotation.turnVectors, hlength]
    · simp [Rotation.turnVectors, hlength]
  · exact hvectors

theorem FormSquare.extendBasis (hvectors : FormSquare n vectors) :
    FormSquare (n + 1) (extendBasis (n + 1) vectors) := by
  refine ⟨by simp [Matrix.extendBasis, hvectors.1], ?_⟩
  simpa [Matrix.extendBasis] using hvectors.2

theorem FormSquare.reflectAll (hvectors : FormSquare n vectors)
    (product : List Float → List Float → Float) {r : Option Reflection}
    (hr : ∀ reflection, r = some reflection → reflection.axis.length = n) :
    FormSquare n (reflectAll product r vectors) := by
  cases r with
  | none => exact hvectors
  | some reflection =>
    refine ⟨(List.length_map _).trans hvectors.1, List.forall_mem_map.2 fun v hv => ?_⟩
    rw [Reflection.applyBy, List.length_zipWith, hr reflection rfl, hvectors.2 v hv, min_self]

/-- The axis of a reflection is as long as the vector that it reflects. -/
theorem length_axis_ofVector {v : List Float} (hv : v ≠ []) {r : Reflection}
    (hr : (Reflection.ofVector v).1 = some r) : r.axis.length = v.length := by
  obtain ⟨x, tail, rfl⟩ := List.exists_cons_of_ne_nil hv
  simp only [Reflection.ofVector] at hr
  split at hr
  · cases hr
  · cases hr
    simp

namespace Bidiagonal

theorem kept_formSquare_right (n : Nat) : Kept fun b => FormSquare n b.right where
  setDiagonal hb _ _ := hb
  setBeside hb _ _ := hb
  turnLeft hb _ _ _ := hb
  turnRight hb r i j := hb.turnAt r i j

theorem length_reflectAll (product : List Float → List Float → Float) (r : Option Reflection)
    (vectors : List (List Float)) : (reflectAll product r vectors).length = vectors.length := by
  cases r with
  | none => rfl
  | some r => exact List.length_map _

/-- There is a right vector for each column, with an entry for each. -/
theorem formSquare_right_ofColumns (down across : List Float → List Float → Float)
    {width : Nat} (height : Nat) {columns : List (List Float)} (hcolumns : columns.length = width) :
    FormSquare width (ofColumns down across width height columns).right := by
  induction width generalizing height columns with
  | zero => exact ⟨rfl, nofun⟩
  | succ width ih =>
    rw [ofColumns]
    dsimp only
    split
    · next hzero =>
      rw [hzero]
      exact ⟨rfl, by simp⟩
    · next hwidth =>
      refine ((ih _ (by simp)).reflectAll across fun r hr => ?_).extendBasis
      have hlength := length_axis_ofVector (by
        rw [← List.length_pos_iff, List.length_map, length_reflectAll, List.length_tail, hcolumns]
        omega) hr
      rw [hlength, List.length_map, length_reflectAll, List.length_tail, hcolumns,
        Nat.add_sub_cancel]

end Bidiagonal

/-! ## Decompositions -/

namespace Singular

variable {m : Matrix Float}

theorem hasCount_ofTall (down across : List Float → List Float → Float) (m : Matrix Float) :
    (ofTall down across m).HasCount m.width := by
  have hcount : ∀ columns,
      (Bidiagonal.ofColumns down across m.width m.height columns).diagonalize.diagonal.length =
        m.width := fun columns =>
    (Bidiagonal.kept_length_diagonal m.width).diagonalize
      (Bidiagonal.length_diagonal_ofColumns ..)
  constructor <;> simp [ofTall, triples, hcount]

theorem length_right_of_mem_triples {b : Bidiagonal} {n : Nat} {scale : Float} {t : Triple}
    (hdiagonal : b.diagonal.length = n) (hright : FormSquare n b.right)
    (ht : t ∈ triples scale b) : t.right.length = n := by
  obtain ⟨i, hi, rfl⟩ := List.mem_map.1 ht
  rw [List.mem_range, hdiagonal, ← hright.1] at hi
  have hvector : (b.right.getD i []).length = n := by
    rw [List.getD_eq_getElem _ _ hi]
    exact hright.2 _ (List.getElem_mem hi)
  dsimp only
  split <;> exact hvector

/-- The right vectors of a matrix that is not wider than high have an entry for each
column. -/
theorem formSquare_right_ofTall (down across : List Float → List Float → Float)
    (m : Matrix Float) : FormSquare m.width (ofTall down across m).right := by
  refine ⟨(hasCount_ofTall down across m).right, List.forall_mem_map.2 fun t ht => ?_⟩
  refine length_right_of_mem_triples ?_ ?_ (List.mem_mergeSort.1 ht)
  · exact (Bidiagonal.kept_length_diagonal m.width).diagonalize
      (Bidiagonal.length_diagonal_ofColumns ..)
  · refine (Bidiagonal.kept_formSquare_right m.width).diagonalize ?_
    refine Bidiagonal.formSquare_right_ofColumns _ _ _ ?_
    split <;> simp [columns]

/-- There are as many singular values as rows or as columns, whichever are fewer. -/
theorem hasCount_ofMatrix (m : Matrix Float) :
    (ofMatrix m).HasCount (min m.height m.width) := by
  rw [ofMatrix]
  split
  · next htall =>
    rw [min_eq_right htall]
    exact hasCount_ofTall _ _ m
  · next hwide =>
    obtain ⟨hvalues, hleft, hright⟩ := hasCount_ofTall dot inner m.transpose
    rw [width_transpose] at hvalues hleft hright
    rw [min_eq_left (not_le.1 hwide).le]
    exact ⟨hvalues, hright, hleft⟩

theorem formSquare_right_ofMatrix (htall : m.width ≤ m.height) :
    FormSquare m.width (ofMatrix m).right := by
  rw [ofMatrix, if_pos htall]
  exact formSquare_right_ofTall _ _ m

def diagonalForm (m : Matrix Float) : Bidiagonal :=
  (Bidiagonal.ofColumns inner dot m.width m.height
    (if greatestMagnitude m.entries == 0 then m.columns
      else m.columns.map (List.map (· / greatestMagnitude m.entries)))).diagonalize

/-- What is known of the diagonal holds of the singular values. -/
theorem forall_mem_values {p : Float → Bool} (htall : m.width ≤ m.height)
    (hform : (triples (greatestMagnitude m.entries) (diagonalForm m)).all fun t => p t.value) :
    ∀ x ∈ (ofMatrix m).values, p x := by
  rw [ofMatrix, if_pos htall]
  intro x hx
  obtain ⟨t, ht, rfl⟩ := List.mem_map.1 hx
  exact List.all_eq_true.1 hform t (List.mem_mergeSort.1 ht)

end Singular

end MatrixCalculator.Matrix
