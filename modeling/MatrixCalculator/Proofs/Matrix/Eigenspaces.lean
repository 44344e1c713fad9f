import MatrixCalculator.Matrix.SpectralMap
import MatrixCalculator.Proofs.Matrix.Entries
import MatrixCalculator.Proofs.Matrix.Routines
import MatrixCalculator.Proofs.Outcome
import MatrixCalculator.Proofs.Text
import Mathlib.Data.List.GetD
import Mathlib.Data.List.TakeWhile

/-!
# Eigenspaces

Eigenvalues in ascending order fall into groups of consecutive ones that count as the first of
them.  A group takes as many rows of right singular vectors as it has members, each row once,
those of the least singular values.  So a square matrix and as many eigenvalues as it has rows
give as many pairs of an eigenvalue and a vector.
-/

namespace MatrixCalculator.Matrix

open Outcome

variable {s : Singular} {row : Nat} {scale : Float} {vectors : List (List Float)}

/-! ## Rows in the order of the singular values -/

/-- The places of the singular values, those of the least ones first. -/
def Singular.rowOrder (s : Singular) : List Nat :=
  (List.range s.values.length).mergeSort fun i j =>
    Numeral.ranksUpTo (s.values.getD i 0) (s.values.getD j 0)

theorem Singular.rowOrder_perm (s : Singular) : s.rowOrder.Perm (List.range s.values.length) :=
  List.mergeSort_perm _ _

theorem Singular.nodup_rowOrder (s : Singular) : s.rowOrder.Nodup :=
  s.rowOrder_perm.nodup_iff.2 List.nodup_range

theorem Singular.length_rowOrder (s : Singular) : s.rowOrder.length = s.values.length := by
  rw [s.rowOrder_perm.length_eq, List.length_range]

theorem Singular.lt_of_mem_rowOrder (hrow : row ∈ s.rowOrder) : row < s.values.length :=
  List.mem_range.1 (s.rowOrder_perm.mem_iff.1 hrow)

/-- The right vector of a row, if its singular value counts as zero. -/
def Singular.nullVector (s : Singular) (scale : Float) (row : Nat) : Except Fault (List Float) :=
  if nullSpaceTolerance * scale < s.values.getD row 0 then .error .notDiagonalizable
  else .ok (s.right.getD row [])

theorem Singular.nullVector_eq_ok_iff {v : List Float} :
    s.nullVector scale row = .ok v ↔
      ¬ nullSpaceTolerance * scale < s.values.getD row 0 ∧ s.right.getD row [] = v := by
  rw [Singular.nullVector]
  split
  · next hlarge => exact ⟨nofun, fun hvector => absurd hlarge hvector.1⟩
  · next hzero =>
    exact ⟨fun hvector => ⟨hzero, Except.ok.inj hvector⟩, fun hvector => congrArg _ hvector.2⟩

/-- Values and vectors are sorted together in the way their places are. -/
theorem nullSpace_eq (hright : s.right.length = s.values.length) (scale : Float) (count : Nat) :
    nullSpace s scale count = (s.rowOrder.take count).mapM (s.nullVector scale) := by
  have hzip : List.zip s.values s.right =
      (List.range s.values.length).map fun i => (s.values.getD i 0, s.right.getD i []) := by
    apply List.ext_getElem
    · simp [hright]
    · intro i hvalue _
      have hi : i < s.values.length := by simpa [hright] using hvalue
      simp [hi, hright ▸ hi]
  have hsorted : (List.zip s.values s.right).mergeSort (fun a b => Numeral.ranksUpTo a.1 b.1) =
      s.rowOrder.map fun i => (s.values.getD i 0, s.right.getD i []) := by
    rw [hzip]
    symm
    exact List.map_mergeSort fun _ _ _ _ => rfl
  rw [nullSpace, hsorted, ← List.map_take, List.mapM_map]
  rfl

theorem mapM_nullVector_eq_ok_iff {rows : List Nat} :
    rows.mapM (s.nullVector scale) = .ok vectors ↔
      vectors = rows.map (fun row => s.right.getD row []) ∧
        ∀ row ∈ rows, ¬ nullSpaceTolerance * scale < s.values.getD row 0 := by
  induction rows generalizing vectors with
  | nil =>
    rw [List.mapM_nil, pure_eq_ok, Except.ok.injEq]
    simp [eq_comm]
  | cons row rows ih =>
    rw [List.mapM_cons, bind_eq_ok_iff, List.map_cons, List.forall_mem_cons]
    constructor
    · rintro ⟨v, hv, hvectors⟩
      obtain ⟨rest, hrest, hvectors⟩ := bind_eq_ok_iff.1 hvectors
      obtain ⟨hzero, rfl⟩ := Singular.nullVector_eq_ok_iff.1 hv
      obtain ⟨rfl, hothers⟩ := ih.1 hrest
      cases hvectors
      exact ⟨rfl, hzero, hothers⟩
    · rintro ⟨rfl, hzero, hothers⟩
      exact ⟨_, Singular.nullVector_eq_ok_iff.2 ⟨hzero, rfl⟩,
        bind_eq_ok_iff.2 ⟨_, ih.2 ⟨rfl, hothers⟩, rfl⟩⟩

/-! ## The matrix less an eigenvalue -/

section Shifted

variable [Routines] [LawfulRoutines] {m shift : Matrix Float}

theorem hasCount_of_shifted (hsquare : m.height = m.width) (hs : (m - shift).singular = .ok s) :
    s.HasCount m.height := by
  have hcount := hasCount_of_singular hs
  rwa [height_sub, width_sub, ← hsquare, min_self] at hcount

theorem formSquare_of_shifted (hsquare : m.height = m.width)
    (hs : (m - shift).singular = .ok s) : FormSquare m.height s.right := by
  have htall : (m - shift).width ≤ (m - shift).height := by
    rw [height_sub, width_sub, hsquare]
  have hright : FormSquare (m - shift).width s.right := formSquare_right_of_singular htall hs
  rwa [width_sub, ← hsquare] at hright

end Shifted

/-! ## Groups of eigenvalues -/

/-- Whether a number counts as an eigenvalue. -/
def countsAs (eigenvalue x : Float) : Bool :=
  (x - eigenvalue).abs <=
    groupingTolerance * if 1.0 < eigenvalue.abs then eigenvalue.abs else 1.0

theorem drop_multiplicity (eigenvalue : Float) (others : List Float) :
    others.drop (multiplicity eigenvalue others) = others.dropWhile (countsAs eigenvalue) :=
  Text.drop_length_takeWhile (countsAs eigenvalue) others

/-- A group of eigenvalues, with the rows of a decomposition that span its eigenspace. -/
structure Eigenspace where
  eigenvalue : Float
  others : List Float
  decomposition : Singular
  rows : List Nat

namespace Eigenspace

variable [Routines] {space : Eigenspace} {m : Matrix Float}

def members (space : Eigenspace) : List Float := space.eigenvalue :: space.others

/-- The first eigenvalue of the group beside the right vector of each row. -/
def pairs (space : Eigenspace) : List (Float × List Float) :=
  space.rows.map fun row => (space.eigenvalue, space.decomposition.right.getD row [])

/-- Whether a group is one of a square matrix: its eigenvalues count as the first of them, and
there are as many different rows of the decomposition of the matrix less that one, all of them
with a singular value that counts as zero. -/
structure IsOf (space : Eigenspace) (m : Matrix Float) : Prop where
  counts : ∀ x ∈ space.others, countsAs space.eigenvalue x
  decomposed : (m - (identity m.height).map (· * space.eigenvalue)).singular =
    .ok space.decomposition
  length_rows : space.rows.length = space.members.length
  nodup_rows : space.rows.Nodup
  row_lt : ∀ row ∈ space.rows, row < m.height
  zero : ∀ row ∈ space.rows,
    ¬ nullSpaceTolerance * m.scale < space.decomposition.values.getD row 0

theorem IsOf.length_pairs (hspace : space.IsOf m) : space.pairs.length = space.members.length :=
  (List.length_map _).trans hspace.length_rows

/-- A vector has an entry for each row of the matrix. -/
theorem IsOf.length_vector [LawfulRoutines] (hspace : space.IsOf m) (hsquare : m.height = m.width)
    {pair : Float × List Float} (hpair : pair ∈ space.pairs) : pair.2.length = m.height := by
  obtain ⟨row, hrow, rfl⟩ := List.mem_map.1 hpair
  have hright := formSquare_of_shifted hsquare hspace.decomposed
  have hplace : row < space.decomposition.right.length := by
    rw [hright.1]
    exact hspace.row_lt row hrow
  dsimp only
  rw [List.getD_eq_getElem _ _ hplace, hright.2 _ (List.getElem_mem hplace)]

end Eigenspace

/-- Whether groups make up eigenvalues and pairs of a matrix.  The first eigenvalue of a group
does not count as the one of the group before it. -/
structure MakeUp [Routines] (m : Matrix Float) (ascending : List Float)
    (pairs : List (Float × List Float)) (spaces : List Eigenspace) : Prop where
  isOf : ∀ space ∈ spaces, space.IsOf m
  members : spaces.flatMap Eigenspace.members = ascending
  pairs : spaces.flatMap Eigenspace.pairs = pairs
  borders : spaces.IsChain fun space next => ¬ countsAs space.eigenvalue next.eigenvalue

variable [Routines] {m : Matrix Float} {ascending : List Float} {pairs : List (Float × List Float)}
  {spaces : List Eigenspace}

theorem MakeUp.length_pairs (hspaces : MakeUp m ascending pairs spaces) :
    pairs.length = ascending.length := by
  rw [← hspaces.pairs, ← hspaces.members, List.length_flatMap, List.length_flatMap]
  congr 1
  exact List.map_congr_left fun space hspace => (hspaces.isOf space hspace).length_pairs

theorem MakeUp.length_vector [LawfulRoutines] (hspaces : MakeUp m ascending pairs spaces)
    (hsquare : m.height = m.width) : ∀ pair ∈ pairs, pair.2.length = m.height := by
  intro pair hpair
  rw [← hspaces.pairs] at hpair
  obtain ⟨space, hspace, hpair⟩ := List.mem_flatMap.1 hpair
  exact (hspaces.isOf space hspace).length_vector hsquare hpair

/-- The group of the first eigenvalue takes as many rows as it has members, which the
decomposition has. -/
theorem isOf_of_nullSpace [LawfulRoutines] (hsquare : m.height = m.width) {eigenvalue : Float}
    {others : List Float} (hlength : others.length < m.height)
    (hs : (m - (identity m.height).map (· * eigenvalue)).singular = .ok s)
    (hzero : ∀ row ∈ s.rowOrder.take (multiplicity eigenvalue others + 1),
      ¬ nullSpaceTolerance * m.scale < s.values.getD row 0) :
    (Eigenspace.mk eigenvalue (others.takeWhile (countsAs eigenvalue)) s
      (s.rowOrder.take (multiplicity eigenvalue others + 1))).IsOf m where
  counts _ := List.mem_takeWhile_imp
  decomposed := hs
  length_rows := by
    have hmembers : (others.takeWhile (countsAs eigenvalue)).length ≤ others.length :=
      (List.takeWhile_prefix _).length_le
    rw [List.length_take, s.length_rowOrder, (hasCount_of_shifted hsquare hs).values,
      Eigenspace.members, List.length_cons]
    exact min_eq_left (Nat.succ_le_of_lt (hmembers.trans_lt hlength))
  nodup_rows := s.nodup_rowOrder.sublist (List.take_sublist _ _)
  row_lt row hrow := by
    rw [← (hasCount_of_shifted hsquare hs).values]
    exact Singular.lt_of_mem_rowOrder (List.mem_of_mem_take hrow)
  zero := hzero

/-- By induction on the groups, each of them a part of what is left of the eigenvalues. -/
theorem exists_makeUp [LawfulRoutines] (hsquare : m.height = m.width)
    (hlength : ascending.length ≤ m.height) (hpairs : m.eigenpairs ascending = .ok pairs) :
    ∃ spaces, MakeUp m ascending pairs spaces := by
  induction ascending using eigenpairs.induct (m := m) generalizing pairs with
  | case1 =>
    rw [eigenpairs] at hpairs
    cases hpairs
    exact ⟨[], nofun, rfl, rfl, List.isChain_nil⟩
  | @case2 eigenvalue others repeats ih =>
    rw [eigenpairs] at hpairs
    obtain ⟨s, hs, hpairs⟩ := bind_eq_ok_iff.1 hpairs
    obtain ⟨vectors, hvectors, hpairs⟩ := bind_eq_ok_iff.1 hpairs
    obtain ⟨rest, hrest, hpairs⟩ := bind_eq_ok_iff.1 hpairs
    cases hpairs
    have hcount := hasCount_of_shifted hsquare hs
    rw [nullSpace_eq (hcount.right.trans hcount.values.symm)] at hvectors
    obtain ⟨rfl, hzero⟩ := mapM_nullVector_eq_ok_iff.1 hvectors
    have hspace := isOf_of_nullSpace hsquare hlength hs hzero
    have hleft : (others.drop (multiplicity eigenvalue others)).length ≤ m.height := by
      rw [List.length_cons] at hlength
      rw [List.length_drop]
      omega
    obtain ⟨spaces, hspaces⟩ := ih hleft hrest
    have hdropped : spaces.flatMap Eigenspace.members = others.dropWhile (countsAs eigenvalue) :=
      hspaces.members.trans (drop_multiplicity eigenvalue others)
    refine ⟨_ :: spaces, List.forall_mem_cons.2 ⟨hspace, hspaces.isOf⟩, ?_, ?_, ?_⟩
    · rw [List.flatMap_cons, hdropped, Eigenspace.members, List.cons_append,
        List.takeWhile_append_dropWhile]
    · rw [List.flatMap_cons, hspaces.pairs, Eigenspace.pairs, List.map_map]
      rfl
    · cases spaces with
      | nil => exact List.isChain_singleton _
      | cons next spaces =>
        -- the next group begins where the run of values that count ends
        have hnext := List.head?_dropWhile_not (countsAs eigenvalue) others
        rw [← hdropped] at hnext
        exact List.isChain_cons_cons.2 ⟨Bool.not_eq_true _ ▸ hnext, hspaces.borders⟩

/-- A single group has its pairs if all singular values count as zero. -/
theorem exists_eigenpairs_of_zero [LawfulRoutines] {eigenvalue : Float} {others : List Float}
    (hgroup : multiplicity eigenvalue others = others.length)
    (hsquare : m.height = m.width)
    (hs : (m - (identity m.height).map (· * eigenvalue)).singular = .ok s)
    (hzero : ∀ x ∈ s.values, ¬ nullSpaceTolerance * m.scale < x) :
    ∃ pairs, m.eigenpairs (eigenvalue :: others) = .ok pairs := by
  obtain ⟨hvalues, -, hright⟩ := hasCount_of_shifted hsquare hs
  have hrows : ∀ row ∈ s.rowOrder.take (others.length + 1),
      ¬ nullSpaceTolerance * m.scale < s.values.getD row 0 := by
    intro row hrow
    have hplace := Singular.lt_of_mem_rowOrder (List.mem_of_mem_take hrow)
    rw [List.getD_eq_getElem _ _ hplace]
    exact hzero _ (List.getElem_mem hplace)
  have hvectors := mapM_nullVector_eq_ok_iff.2 ⟨rfl, hrows⟩
  rw [eigenpairs, hs, ok_bind, hgroup, nullSpace_eq (hright.trans hvalues.symm), hvectors,
    ok_bind, List.drop_length, eigenpairs]
  exact ⟨_, rfl⟩

end MatrixCalculator.Matrix
