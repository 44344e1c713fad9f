import MatrixCalculator.Proofs.Matrix.Eigenspaces
import MatrixCalculator.Proofs.Matrix.Eigenvalues
import MatrixCalculator.Proofs.Operator.Guarded

/-!
# Functions of eigenvalues from guarded parts

A function of eigenvalues once more, over any way to take rows out of a decomposition and to
put matrices together.  A guarded way takes rows that are there, puts columns of one length
side by side and a number for each row on a diagonal, and inverts square matrices, and fails
anywhere else.  It never fails: there is an eigenvector for each row.
-/

namespace MatrixCalculator.Matrix

open Outcome

variable {M : Type → Type} [Monad M]

/-- How rows are taken and matrices are put together. -/
structure Assembly (M : Type → Type) extends Arithmetic M where
  row : Singular → Nat → M (Float × List Float)
  ofColumns : Nat → List (List Float) → M (Matrix Float)
  diagonal : Nat → List Float → M (Matrix Float)
  inverse? : Matrix Float → M (Option (Matrix Float))

namespace Assembly

/-- From any parts. -/
def plain [Routines] : Assembly Id where
  toArithmetic := .plain
  row s i := pure (s.values.getD i 0, s.right.getD i [])
  ofColumns height columns := pure (.ofColumns height columns)
  diagonal _ values := pure (.diagonal values)
  inverse? m := pure (Routines.inverse? m)

/-- From parts that fit, and from no others. -/
def guarded [Routines] : Assembly Option where
  toArithmetic := .guarded
  row s i := do return (← s.values[i]?, ← s.right[i]?)
  ofColumns height columns :=
    if columns ≠ [] ∧ ∀ column ∈ columns, column.length = height then
      some (.ofColumns height columns)
    else none
  diagonal count values := if values.length = count then some (.diagonal values) else none
  inverse? m := if m.height = m.width then some (Routines.inverse? m) else none

/-- Whether parts that fit are put together in the usual way. -/
structure Agrees [Routines] (p : Assembly M) : Prop extends p.toArithmetic.Agrees where
  row : ∀ {s i}, i < s.values.length → i < s.right.length →
    p.row s i = pure (s.values.getD i 0, s.right.getD i [])
  ofColumns : ∀ {height columns}, columns ≠ [] → (∀ column ∈ columns, column.length = height) →
    p.ofColumns height columns = pure (.ofColumns height columns)
  diagonal : ∀ {count values}, values.length = count →
    p.diagonal count values = pure (.diagonal values)
  inverse? : ∀ {m}, m.height = m.width → p.inverse? m = pure (Routines.inverse? m)

theorem agrees_plain [Routines] : plain.Agrees where
  toAgrees := Arithmetic.agrees_plain
  row _ _ := rfl
  ofColumns _ _ := rfl
  diagonal _ := rfl
  inverse? _ := rfl

theorem agrees_guarded [Routines] : guarded.Agrees where
  toAgrees := Arithmetic.agrees_guarded
  row hvalue hright := by simp [guarded, hvalue, hright]
  ofColumns hne hlength := if_pos ⟨hne, hlength⟩
  diagonal hlength := if_pos hlength
  inverse? hsquare := if_pos hsquare

variable (p : Assembly M)

/-! ## Functions of eigenvalues -/

def nullVector (s : Singular) (scale : Float) (row : Nat) : ExceptT Fault M (List Float) := do
  let (value, v) ← p.row s row
  if nullSpaceTolerance * scale < value then throw .notDiagonalizable else return v

def eigenpairs [Routines] (m : Matrix Float) :
    (ascending : List Float) → ExceptT Fault M (List (Float × List Float))
  | [] => return []
  | eigenvalue :: others => do
    let repeats := multiplicity eigenvalue others
    let shifted ← p.sub m ((identity m.height).map (· * eigenvalue))
    let s ← known shifted.singular
    let vectors ← (s.rowOrder.take (repeats + 1)).mapM (p.nullVector s m.scale)
    let rest ← eigenpairs m (others.drop repeats)
    return vectors.map (eigenvalue, ·) ++ rest
termination_by ascending => ascending.length

def mapSymmetric [Routines] (f : Float → Float) (m : Matrix Float) : M (Matrix Float) := do
  let (values, vectors) := Routines.symmetricEigen m
  p.mul (← p.mul vectors (.diagonal (values.map fun x => f x.abs))) vectors.transpose

def mapDiagonalizable [Routines] (f : Float → Float) (m : Matrix Float) :
    ExceptT Fault M (Matrix Float) :=
  match Routines.realEigenvalues? m with
  | none => throw .notDiagonalizable
  | some values => do
    let pairs ← p.eigenpairs m (values.mergeSort Numeral.ranksUpTo)
    let vectors ← p.ofColumns m.height (pairs.map Prod.snd)
    match ← p.inverse? vectors with
    | none => throw .notDiagonalizable
    | some inverse =>
      let mapped ← p.diagonal m.height (pairs.map fun pair => f pair.1.abs)
      p.mul (← p.mul vectors mapped) inverse

def spectralMap [Routines] (operation : Text) (f : Float → Float) (m : Matrix Float) :
    ExceptT Fault M (Matrix Float) := do
  let _ ← known (m.requireSquare operation)
  known m.requireFinite
  if m.isSymmetric then p.mapSymmetric f m else p.mapDiagonalizable f m

end Assembly

/-! ## The same values -/

section Values

variable [LawfulMonad M] [Routines] {p : Assembly M} {m : Matrix Float} {s : Singular}

namespace Assembly.Agrees

theorem nullVector (hp : p.Agrees) {row : Nat} (hvalue : row < s.values.length)
    (hright : row < s.right.length) (scale : Float) :
    p.nullVector s scale row = known (s.nullVector scale row) := by
  rw [Assembly.nullVector, hp.row hvalue hright, liftM_pure_bind, Singular.nullVector]
  dsimp only
  split <;> rfl

/-- The rows of a group are rows of the decomposition. -/
theorem eigenpairs [LawfulRoutines] (hp : p.Agrees) (hsquare : m.height = m.width)
    (ascending : List Float) :
    p.eigenpairs m ascending = known (m.eigenpairs ascending) := by
  induction ascending using Matrix.eigenpairs.induct (m := m) with
  | case1 =>
    rw [Assembly.eigenpairs, Matrix.eigenpairs]
    rfl
  | @case2 eigenvalue others repeats ih =>
    have hshape : m.SameShape ((identity m.height).map (· * eigenvalue)) := by
      constructor <;> simp [hsquare]
    rw [Assembly.eigenpairs, Matrix.eigenpairs, hp.sub hshape, liftM_pure_bind]
    cases hs : (m - (identity m.height).map (· * eigenvalue)).singular with
    | error cause => rw [known_error_bind, error_bind]
    | ok s =>
      obtain ⟨hvalues, -, hright⟩ := hasCount_of_shifted hsquare hs
      have hrows : ∀ row ∈ s.rowOrder.take (multiplicity eigenvalue others + 1),
          p.nullVector s m.scale row = known (s.nullVector m.scale row) := by
        intro row hrow
        have hplace := Singular.lt_of_mem_rowOrder (List.mem_of_mem_take hrow)
        exact hp.nullVector hplace (by rwa [hright, ← hvalues]) m.scale
      rw [known_ok_bind, ok_bind, nullSpace_eq (hright.trans hvalues.symm),
        mapM_eq_known hrows]
      cases (s.rowOrder.take (multiplicity eigenvalue others + 1)).mapM (s.nullVector m.scale) with
      | error cause => rw [known_error_bind, error_bind]
      | ok vectors =>
        rw [known_ok_bind, ok_bind, ih]
        cases m.eigenpairs (others.drop (multiplicity eigenvalue others)) with
        | error cause => rw [known_error_bind, error_bind]
        | ok rest => rw [known_ok_bind, ok_bind]; rfl

theorem mapSymmetric [LawfulRoutines] (hp : p.Agrees) (hsquare : m.height = m.width)
    (f : Float → Float) : p.mapSymmetric f m = pure (m.mapSymmetric f) := by
  rw [Assembly.mapSymmetric, Matrix.mapSymmetric]
  cases heigen : Routines.symmetricEigen m with
  | mk values vectors =>
    obtain ⟨hvalues, hheight, hwidth⟩ := LawfulRoutines.size_symmetricEigen hsquare heigen
    dsimp only
    rw [hp.mul (by simp [hvalues, hwidth]), pure_bind, hp.mul (by simp [hvalues, hwidth])]

/-- There is an eigenvector for each row, so they form a square matrix. -/
theorem mapDiagonalizable [LawfulRoutines] (hp : p.Agrees) (hheight : 0 < m.height)
    (hsquare : m.height = m.width) (f : Float → Float) :
    p.mapDiagonalizable f m = known (m.mapDiagonalizable f) := by
  rw [Assembly.mapDiagonalizable, Matrix.mapDiagonalizable]
  cases heigenvalues : Routines.realEigenvalues? m with
  | none => rfl
  | some values =>
    dsimp only
    rw [hp.eigenpairs hsquare]
    cases hpairs : m.eigenpairs (values.mergeSort Numeral.ranksUpTo) with
    | error cause => rw [known_error_bind, error_bind]
    | ok pairs =>
      have hlength : (values.mergeSort Numeral.ranksUpTo).length = m.height := by
        rw [List.length_mergeSort, LawfulRoutines.length_realEigenvalues hsquare heigenvalues]
      obtain ⟨spaces, hspaces⟩ := exists_makeUp hsquare hlength.le hpairs
      have hcount : pairs.length = m.height := hspaces.length_pairs.trans hlength
      have hcolumns : ∀ column ∈ pairs.map Prod.snd, column.length = m.height :=
        List.forall_mem_map.2 (hspaces.length_vector hsquare)
      have hne : pairs.map Prod.snd ≠ [] := by
        rw [← List.length_pos_iff, List.length_map, hcount]
        exact hheight
      have hsize : (Matrix.ofColumns m.height (pairs.map Prod.snd)).height = m.height ∧
          (Matrix.ofColumns m.height (pairs.map Prod.snd)).width = m.height := by
        simp [Matrix.ofColumns, hcount]
      rw [known_ok_bind, ok_bind, hp.ofColumns hne hcolumns, liftM_pure_bind,
        hp.inverse? (hsize.1.trans hsize.2.symm), liftM_pure_bind]
      cases hinverse : Routines.inverse? (Matrix.ofColumns m.height (pairs.map Prod.snd)) with
      | none => rfl
      | some inverse =>
        have hinner := (LawfulRoutines.size_inverse (hsize.1.trans hsize.2.symm) hinverse).1
        dsimp only
        rw [hp.diagonal (by rw [List.length_map, hcount]), liftM_pure_bind,
          hp.mul (by simp [hsize, hcount]), liftM_pure_bind,
          hp.mul (by simp [hinner, hsize, hcount]), liftM_pure_eq_known]
        rfl

theorem spectralMap [LawfulRoutines] (hp : p.Agrees) (hheight : 0 < m.height)
    (operation : Text) (f : Float → Float) :
    p.spectralMap operation f m = known (m.spectralMap operation f) := by
  rw [Assembly.spectralMap, Matrix.spectralMap, requireSquare]
  split
  · next hsquare =>
    rw [known_ok_bind, ok_bind]
    cases m.requireFinite with
    | error cause => rw [known_error_bind, error_bind]
    | ok _ =>
      rw [known_ok_bind, ok_bind]
      split
      · rw [hp.mapSymmetric hsquare, liftM_pure_eq_known]
        rfl
      · exact hp.mapDiagonalizable hheight hsquare f
  · rw [known_error_bind, error_bind]

end Assembly.Agrees

end Values

/-- Eigenvalues of a square matrix, one for each row, give as many pairs of an eigenvalue and a
vector, group by group.  The vectors form a matrix of the same shape, so a function of
eigenvalues is found from parts that fit. -/
theorem eigenpairs_for_each_row [Routines] [LawfulRoutines] {m : Matrix Float}
    (hheight : 0 < m.height) (hsquare : m.height = m.width) :
    (∀ values : List Float, values.length = m.height →
      Assembly.guarded.eigenpairs m (values.mergeSort Numeral.ranksUpTo) =
          some (m.eigenpairs (values.mergeSort Numeral.ranksUpTo)) ∧
        ∀ pairs, m.eigenpairs (values.mergeSort Numeral.ranksUpTo) = .ok pairs →
          pairs.length = m.height ∧ (∀ pair ∈ pairs, pair.2.length = m.height) ∧
            (ofColumns m.height (pairs.map Prod.snd)).SameShape m ∧
            ∃ spaces, MakeUp m (values.mergeSort Numeral.ranksUpTo) pairs spaces) ∧
      ∀ operation f,
        Assembly.plain.spectralMap operation f m = m.spectralMap operation f ∧
          Assembly.guarded.spectralMap operation f m = some (m.spectralMap operation f) := by
  refine ⟨fun values hvalues => ⟨Assembly.agrees_guarded.eigenpairs hsquare _, ?_⟩,
    fun operation f => ⟨Assembly.agrees_plain.spectralMap hheight operation f,
      Assembly.agrees_guarded.spectralMap hheight operation f⟩⟩
  intro pairs hpairs
  have hlength : (values.mergeSort Numeral.ranksUpTo).length = m.height := by
    rw [List.length_mergeSort, hvalues]
  obtain ⟨spaces, hspaces⟩ := exists_makeUp hsquare hlength.le hpairs
  have hcount : pairs.length = m.height := hspaces.length_pairs.trans hlength
  refine ⟨hcount, hspaces.length_vector hsquare, ⟨height_ofFn _ _ _, ?_⟩, spaces, hspaces⟩
  rw [ofColumns, width_ofFn, List.length_map, hcount, hsquare]

/-- Twice the identity has an eigenspace of two rows. -/
theorem eigenpairs_twice :
    ∃ pairs, (ofRows 2 [[2, 0], [0, 2]] : Matrix Float).eigenpairs
      ([2, 2].mergeSort Numeral.ranksUpTo) = .ok pairs ∧ pairs.length = 2 := by
  obtain ⟨hpairs, -⟩ := eigenpairs_for_each_row (m := ofRows 2 [[2, 0], [0, 2]]) (by decide) rfl
  have hvalues := Singular.forall_mem_values
    (m := ofRows 2 [[2, 0], [0, 2]] - (identity 2).map (· * 2))
    (p := fun x => ! decide (nullSpaceTolerance * (ofRows 2 [[2, 0], [0, 2]]).scale < x))
    (by decide) (by decide +kernel)
  have hzero : ∀ x ∈ (Singular.ofMatrix
      (ofRows 2 [[2, 0], [0, 2]] - (identity 2).map (· * 2))).values,
      ¬ nullSpaceTolerance * (ofRows 2 [[2, 0], [0, 2]]).scale < x := by
    simpa using hvalues
  have hgroup : multiplicity 2 [2] = [2].length := by decide +kernel
  obtain ⟨pairs, hfound⟩ := exists_eigenpairs_of_zero hgroup rfl rfl hzero
  have hsorted : [2, 2].mergeSort Numeral.ranksUpTo = [2, 2] :=
    List.mergeSort_of_pairwise (by decide +kernel)
  rw [← hsorted] at hfound
  exact ⟨pairs, hfound, ((hpairs [2, 2] rfl).2 pairs hfound).1⟩

end MatrixCalculator.Matrix
