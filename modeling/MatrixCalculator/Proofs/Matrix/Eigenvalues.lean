import MatrixCalculator.Matrix.Decomposition
import MatrixCalculator.Proofs.Matrix.Entries
import MatrixCalculator.Proofs.Matrix.SingularValues

/-!
# How many eigenvalues there are

No step on the way to a triangular or a diagonal form adds or takes away a row, so a square
matrix has one eigenvalue for each row, if all of them are real.  An inverse is as large as its
matrix, and so the decompositions by reflections and rotations are lawful routines.
-/

namespace MatrixCalculator.Matrix

/-! ## Triangular forms -/

namespace AlmostTriangular

variable {t result : AlmostTriangular} {i j start last : Nat} {x : Float} {r : Reflection}

@[simp]
theorem length_put : (t.put i j x).length = t.length := List.length_set

@[simp]
theorem length_reflectRows : (reflectRows r i j t).length = t.length := List.length_mapIdx

@[simp]
theorem length_reflectColumns : (reflectColumns r i j t).length = t.length := List.length_mapIdx

@[simp]
theorem length_clearColumn : (t.clearColumn j).length = t.length := by
  rw [clearColumn, List.length_mapIdx]
  split <;> simp

theorem length_ofRows (rows : List (List Float)) : (ofRows rows).length = rows.length := by
  rw [ofRows]
  generalize List.range (rows.length - 1) = places
  induction places generalizing rows with
  | nil => rfl
  | cons j places ih => rw [List.foldl_cons, ih, length_clearColumn]

@[simp]
theorem length_trimEnd : (t.trimEnd last).1.length = t.length := by
  induction last generalizing t with
  | zero => rfl
  | succ m ih =>
    rw [trimEnd]
    split
    · rw [ih, length_put]
    · rfl

@[simp]
theorem length_blockStart : (t.blockStart start).1.length = t.length := by
  induction start with
  | zero => rfl
  | succ m ih =>
    rw [blockStart]
    split
    · exact length_put
    · exact ih

@[simp]
theorem length_block : (t.block last).1.length = t.length := by
  have htrimmed : (t.trimEnd last).1.length = t.length := length_trimEnd
  rw [block]
  split <;> next heq =>
    rw [heq] at htrimmed
    simpa using htrimmed

@[simp]
theorem length_chase (places : List Nat) (axis : List Float) :
    (chase start last places axis t).length = t.length := by
  induction places generalizing axis t with
  | nil =>
    rw [chase]
    dsimp only
    split <;> simp
  | cons k places ih =>
    rw [chase]
    dsimp only
    rw [ih]
    split
    · rfl
    · split <;> simp

@[simp]
theorem length_sweep : (t.sweep start last).length = t.length := length_chase _ _

@[simp]
theorem length_splitPair : (t.splitPair start).length = t.length := by
  rw [splitPair]
  dsimp only
  split <;> simp

@[simp]
theorem length_rounds (fuel : Nat) : (rounds fuel start last t).length = t.length := by
  induction fuel generalizing start last t with
  | zero => rfl
  | succ fuel ih =>
    rw [rounds]
    split
    · rfl
    split
    · dsimp only
      split
      · rw [ih, length_block, length_splitPair]
      · exact length_splitPair
    · dsimp only
      rw [ih, length_block, length_sweep]

theorem length_of_triangularDiagonal? {values : List Float}
    (hvalues : t.triangularDiagonal? = some values) : values.length = t.length := by
  rw [triangularDiagonal?] at hvalues
  split at hvalues
  · cases hvalues
    exact List.length_mapIdx
  · cases hvalues

end AlmostTriangular

variable {m : Matrix Float} {values : List Float}

/-- A matrix has as many real eigenvalues as rows, or they are not all real. -/
theorem length_of_realEigenvalues? (hvalues : m.realEigenvalues? = some values) :
    values.length = m.height := by
  rw [realEigenvalues?] at hvalues
  dsimp only at hvalues
  split at hvalues
  · next hheight =>
    cases hvalues
    exact hheight.symm
  · next hheight =>
    cases hvalues
    exact hheight.symm
  · next hheight =>
    obtain ⟨pair, -, rfl⟩ := Option.map_eq_some_iff.1 hvalues
    exact hheight.symm
  · obtain ⟨diagonal, hdiagonal, rfl⟩ := Option.map_eq_some_iff.1 hvalues
    rw [List.length_map, AlmostTriangular.length_of_triangularDiagonal? hdiagonal,
      AlmostTriangular.length_rounds, AlmostTriangular.length_block,
      AlmostTriangular.length_ofRows, List.length_map, height]

/-! ## Diagonal forms -/

namespace Tridiagonal

variable {t result : Tridiagonal} {r : Rotation} {i start last : Nat} {x y : Float}

@[simp]
theorem length_setDiagonal : (t.setDiagonal i x).diagonal.length = t.diagonal.length :=
  List.length_set

@[simp]
theorem diagonal_setBeside : (t.setBeside i x).diagonal = t.diagonal := rfl

@[simp]
theorem diagonal_turnBasis : (t.turnBasis r i).diagonal = t.diagonal := rfl

@[simp]
theorem diagonal_blockStart : (t.blockStart start).1.diagonal = t.diagonal := by
  induction start with
  | zero => rfl
  | succ m ih =>
    rw [blockStart]
    split
    · rfl
    · exact ih

@[simp]
theorem diagonal_block : (t.block last).1.diagonal = t.diagonal := by
  rw [block]
  split
  · rfl
  · exact diagonal_blockStart

@[simp]
theorem length_chase (places : List Nat) :
    (chase start last places x y t).diagonal.length = t.diagonal.length := by
  induction places generalizing x y t with
  | nil => rfl
  | cons k places ih =>
    rw [chase]
    split
    · rfl
    · dsimp only
      split
      · split <;> simp
      · rw [ih]
        split <;> simp

@[simp]
theorem length_sweep : (t.sweep start last).diagonal.length = t.diagonal.length := length_chase _

@[simp]
theorem length_splitPair : (t.splitPair start).diagonal.length = t.diagonal.length := by
  rw [splitPair]
  dsimp only
  split
  · rfl
  · split <;> simp

theorem length_rounds (fuel : Nat) :
    (rounds fuel start last t).diagonal.length = t.diagonal.length := by
  induction fuel generalizing start last t with
  | zero => rfl
  | succ fuel ih =>
    rw [rounds]
    split
    · rfl
    · split
      next heq =>
        dsimp only
        rw [ih, diagonal_block]
        split at heq <;> cases heq <;> simp

theorem length_diagonalize : t.diagonalize.diagonal.length = t.diagonal.length := by
  rw [diagonalize]
  dsimp only
  rw [length_rounds, diagonal_block]

theorem length_diagonal_ofTriangle (size : Nat) (columns : List (List Float)) :
    (ofTriangle size columns).diagonal.length = size := by
  induction size generalizing columns with
  | zero => rfl
  | succ size ih =>
    rw [ofTriangle]
    dsimp only
    split
    · next hzero =>
      rw [hzero]
      rfl
    · rw [List.length_cons, ih]

end Tridiagonal

/-- A symmetric matrix has as many eigenvalues as rows, and its eigenvectors form a matrix of
its size. -/
theorem size_of_symmetricEigen {vectors : Matrix Float}
    (heigen : m.symmetricEigen = (values, vectors)) :
    values.length = m.height ∧ vectors.height = m.height ∧ vectors.width = m.height := by
  obtain ⟨rfl, rfl⟩ := Prod.mk.inj heigen
  refine ⟨?_, height_ofFn _ _ _, rfl⟩
  rw [List.length_map, Tridiagonal.length_diagonalize, Tridiagonal.length_diagonal_ofTriangle]

/-! ## Inverses -/

theorem length_solveSystem {steps : Nat} {system solved : List (List Float)}
    (hsystem : system.length = steps) (hsolved : solveSystem steps system = some solved) :
    solved.length = steps := by
  induction steps generalizing system solved with
  | zero =>
    cases hsolved
    rfl
  | succ steps ih =>
    have hexchange : ∀ place, (exchange 0 place system).length = steps + 1 := by
      intro place
      rw [exchange]
      split <;> simp [hsystem]
    rw [solveSystem] at hsolved
    dsimp only at hsolved
    split at hsolved
    · next hnone =>
      have hlength := hexchange (pivotPlace (system.map (·.headD 0)))
      rw [hnone] at hlength
      cases hlength
    · next first others hfirst =>
      split at hsolved
      · cases hsolved
      have hlength := hexchange (pivotPlace (system.map (·.headD 0)))
      rw [hfirst] at hlength
      obtain ⟨rest, hrest, hsolved⟩ := Option.bind_eq_some_iff.1 hsolved
      cases hsolved
      rw [List.length_cons, ih (by simpa using hlength) hrest]

theorem size_of_inverseByElimination {inverse : Matrix Float}
    (hinverse : m.inverseByElimination = some inverse) :
    inverse.height = m.height ∧ inverse.width = m.height := by
  obtain ⟨solved, hsolved, rfl⟩ := Option.map_eq_some_iff.1 hinverse
  have hidentity : (identity m.height : Matrix Float).rows.length = m.height :=
    height_identity m.height
  have hsystem : (List.zipWith (· ++ ·) m.rows (identity m.height : Matrix Float).rows).length =
      m.height := by
    rw [List.length_zipWith, hidentity, height, min_self]
  exact ⟨by rw [height_ofRows, length_solveSystem hsystem hsolved], rfl⟩

/-- A value that is there under a condition has the size that it has at all. -/
theorem size_of_ite {c : Prop} [Decidable c] {n : Nat} {value inverse : Matrix Float}
    (hvalue : value.height = n ∧ value.width = n)
    (hinverse : (if c then none else some value) = some inverse) :
    inverse.height = n ∧ inverse.width = n := by
  obtain ⟨-, hsome⟩ := Option.ite_none_left_eq_some.1 hinverse
  cases hsome
  exact hvalue

/-- An inverse is as large as the square matrix. -/
theorem size_of_inverse? {inverse : Matrix Float} (hsquare : m.height = m.width)
    (hinverse : m.inverse? = some inverse) :
    inverse.height = m.height ∧ inverse.width = m.height := by
  rw [inverse?] at hinverse
  dsimp only at hinverse
  split at hinverse
  · cases hinverse
    exact ⟨rfl, hsquare.symm⟩
  · next hheight =>
    rw [hheight]
    exact size_of_ite ⟨rfl, rfl⟩ hinverse
  · next hheight =>
    rw [hheight]
    exact size_of_ite ⟨rfl, rfl⟩ hinverse
  · next hheight =>
    rw [hheight]
    exact size_of_ite ⟨rfl, rfl⟩ hinverse
  · next hheight =>
    rw [hheight]
    exact size_of_ite ⟨rfl, rfl⟩ hinverse
  · exact size_of_inverseByElimination hinverse

/-! ## Routines -/

instance : LawfulRoutines where
  hasCount := by
    rintro m s ⟨⟩
    exact Singular.hasCount_ofMatrix m
  formSquare_right := by
    rintro m s htall ⟨⟩
    exact Singular.formSquare_right_ofMatrix htall
  size_symmetricEigen _ := size_of_symmetricEigen
  length_realEigenvalues _ := length_of_realEigenvalues?
  size_inverse := size_of_inverse?

end MatrixCalculator.Matrix
