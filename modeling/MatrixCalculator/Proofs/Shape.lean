import MatrixCalculator.Operator.Application
import MatrixCalculator.Proofs.Matrix.Routines
import MatrixCalculator.Proofs.Outcome
import Mathlib.Tactic

/-!
# Shapes of results

The shapes of the operands alone say whether an operator is defined for them, and what the
shape of its value is.  A literal has at least one row and one column, since there is no
text for anything less.  No operator leads out of these matrices, so every result of an
expression can be written as a literal again.
-/

namespace MatrixCalculator

open Outcome

namespace Matrix

def HasEntries {α : Type} (m : Matrix α) : Prop := 0 < m.height ∧ 0 < m.width

instance {α : Type} (m : Matrix α) : Decidable m.HasEntries := inferInstanceAs (Decidable (_ ∧ _))

theorem HasEntries.map {α β : Type} {a : Matrix α} (ha : a.HasEntries) (f : α → β) :
    (a.map f).HasEntries := by
  rw [HasEntries, height_map, width_map]
  exact ha

/-! ## Powers -/

variable {m value : Matrix Float} {exponent : Float}

/-- A pseudo-inverse has the shape of the transpose. -/
theorem shape_of_pseudoInverse [Routines] (hvalue : m.pseudoInverse = .ok value) :
    value.height = m.width ∧ value.width = m.height := by
  simp only [Matrix.pseudoInverse, bind_eq_ok_iff, pure_eq_ok, Except.ok.injEq] at hvalue
  obtain ⟨-, -, s, -, rfl⟩ := hvalue
  rw [height_transpose, width_transpose, width_mul, height_mul, width_ofRows, height_ofFn]
  exact ⟨rfl, rfl⟩

theorem shape_of_singularPower [Routines] (hvalue : m.singularPower exponent = .ok value) :
    value.height = m.height ∧ value.width = m.height := by
  simp only [Matrix.singularPower, bind_eq_ok_iff, pure_eq_ok, Except.ok.injEq] at hvalue
  obtain ⟨-, -, s, -, rfl⟩ := hvalue
  rw [width_mul, height_mul, height_mul, width_ofRows, height_ofFn]
  exact ⟨rfl, rfl⟩

theorem shape_powerLoop {n steps : Nat} {front base : Matrix Float}
    (hfront : front.height = n ∧ front.width = n) (hbase : base.height = n ∧ base.width = n) :
    (powerLoop front base steps).height = n ∧ (powerLoop front base steps).width = n := by
  induction steps using Nat.strong_induction_on generalizing front base with
  | h steps ih =>
    rw [powerLoop]
    split
    · exact hfront
    · refine ih (steps / 2) (by omega) ?_ ⟨(height_mul _ _).trans hbase.1, hbase.2⟩
      split
      · exact ⟨(height_mul _ _).trans hfront.1, hbase.2⟩
      · exact hfront

theorem shape_powerBySquaring {n steps : Nat} (hm : m.height = n ∧ m.width = n) :
    (m.powerBySquaring steps).height = n ∧ (m.powerBySquaring steps).width = n := by
  rw [powerBySquaring, hm.1]
  exact shape_powerLoop ⟨height_identity n, width_identity n⟩ hm

inductive PowerFault [Routines] (m : Matrix Float) (exponent : Float) : Fault → Prop
  | exponent (hexponent : exponent.isFinite = false) : PowerFault m exponent .notANumber
  | inverse {cause : Fault} (hwhole : Numeral.isWhole exponent) (hnegative : exponent < 0)
      (hinverse : m.pseudoInverse = .error cause) : PowerFault m exponent cause
  | fractional {cause : Fault} (hfinite : exponent.isFinite)
      (hfractional : Numeral.isWhole exponent = false)
      (hpower : m.singularPower exponent = .error cause) : PowerFault m exponent cause

theorem power_of_ne [Routines] (hshape : m.height ≠ m.width) :
    m.power exponent = .error (.notSquare "matrix power".toList m.height m.width) := by
  rw [power, requireSquare, if_neg hshape, error_bind]

section Square

variable [Routines] (hsquare : m.height = m.width)

include hsquare

theorem power_of_eq :
    m.power exponent =
      if exponent.isFinite = false then .error .notANumber
      else if Numeral.isWhole exponent = false then m.singularPower exponent
      else if exponent < 0 then
        (·.powerBySquaring (Numeral.toWord exponent)) <$> m.pseudoInverse
      else .ok (m.powerBySquaring (Numeral.toWord exponent)) := by
  rw [power, requireSquare, if_pos hsquare, ok_bind]
  rfl

theorem shape_of_power (hvalue : m.power exponent = .ok value) :
    value.height = m.height ∧ value.width = m.width := by
  rw [power_of_eq hsquare] at hvalue
  rw [← hsquare]
  split at hvalue
  · cases hvalue
  split at hvalue
  · exact shape_of_singularPower hvalue
  split at hvalue
  · obtain ⟨inverse, hinverse, rfl⟩ := map_eq_ok_iff.1 hvalue
    obtain ⟨hheight, hwidth⟩ := shape_of_pseudoInverse hinverse
    exact shape_powerBySquaring ⟨hheight.trans hsquare.symm, hwidth⟩
  · cases hvalue
    exact shape_powerBySquaring ⟨rfl, hsquare.symm⟩

theorem power_eq_error_iff {cause : Fault} :
    m.power exponent = .error cause ↔ m.PowerFault exponent cause := by
  rw [power_of_eq hsquare]
  constructor
  · intro herror
    split at herror
    · next hexponent =>
      cases herror
      exact .exponent hexponent
    next hfinite =>
    split at herror
    · next hfractional => exact .fractional (by simpa using hfinite) hfractional herror
    next hwhole =>
    split at herror
    · next hnegative =>
      exact .inverse (by simpa using hwhole) hnegative (map_eq_error_iff.1 herror)
    · cases herror
  · intro hfault
    cases hfault with
    | exponent hexponent => rw [if_pos hexponent]
    | inverse hwhole hnegative hinverse =>
      have hfinite : exponent.isFinite := (Bool.and_eq_true_iff.1 hwhole).1
      rw [if_neg (by simp [hfinite]), if_neg (by simp [hwhole]), if_pos hnegative, hinverse,
        map_error]
    | fractional hfinite hfractional hpower =>
      rw [if_neg (by simp [hfinite]), if_pos hfractional, hpower]

end Square

/-! ## Functions of eigenvalues -/

/-- A function of eigenvalues leads to a matrix with as many rows. -/
theorem height_of_spectralMap [Routines] [LawfulRoutines] {operation : Text} {f : Float → Float}
    (hvalue : m.spectralMap operation f = .ok value) : value.height = m.height := by
  simp only [Matrix.spectralMap, bind_eq_ok_iff] at hvalue
  obtain ⟨side, hside, -, -, hvalue⟩ := hvalue
  split at hvalue
  · have hsquare : m.height = m.width := (ite_eq_ok_iff.1 hside).1
    cases hvalue
    rw [mapSymmetric, height_mul, height_mul]
    exact (LawfulRoutines.size_symmetricEigen hsquare rfl).2.1
  · rw [mapDiagonalizable] at hvalue
    split at hvalue
    · cases hvalue
    obtain ⟨pairs, -, hvalue⟩ := bind_eq_ok_iff.1 hvalue
    dsimp only at hvalue
    split at hvalue
    · cases hvalue
    cases hvalue
    rw [height_mul, height_mul, ofColumns, height_ofFn]

end Matrix

namespace Operand

def HasEntries : Operand → Prop
  | scalar _ => True
  | matrix m => m.HasEntries

instance : (x : Operand) → Decidable x.HasEntries
  | scalar _ => .isTrue trivial
  | matrix m => inferInstanceAs (Decidable m.HasEntries)

/-- The height and the width of a matrix; a number has none. -/
def shape : Operand → Option (Nat × Nat)
  | scalar _ => none
  | matrix m => some (m.height, m.width)

theorem hasEntries_iff {x : Operand} :
    x.HasEntries ↔ ∀ height width, x.shape = some (height, width) → 0 < height ∧ 0 < width := by
  cases x with
  | scalar x => simp [HasEntries, shape]
  | matrix m => simp [HasEntries, shape, Matrix.HasEntries]

end Operand

namespace Operator

open Operand (shape)

/-! ## Shapes that suit an operator -/

/-- The shape of the value for operands of given shapes, or the fault of shapes that do not
suit the operator. -/
def shapeOf (op : Operator) :
    Option (Nat × Nat) → Option (Nat × Nat) → Except Fault (Option (Nat × Nat))
  | none, none => .ok none
  | some (height, width), none =>
    match op with
    | mul | div | add | sub => .ok (some (height, width))
    | pow =>
      if height = width then .ok (some (height, width))
      else .error (.notSquare "matrix power".toList height width)
    | mod => .error (.unsupportedOperands op.name "a matrix and a scalar".toList)
  | none, some (height, width) =>
    match op with
    | mul | add | sub => .ok (some (height, width))
    | div => .ok (some (width, height))
    | pow =>
      if height = width then .ok (some (height, width))
      else .error (.notSquare "matrix power".toList height width)
    | mod => .error (.unsupportedOperands op.name "a scalar and a matrix".toList)
  | some (height, width), some (height', width') =>
    let mismatch := .error (.dimensionMismatch op.name height width height' width')
    match op with
    | add | sub =>
      if height = height' ∧ width = width' then .ok (some (height, width)) else mismatch
    | mul => if width = height' then .ok (some (height, width')) else mismatch
    | div => if width = width' then .ok (some (height, height')) else mismatch
    | pow | mod => .error (.unsupportedOperands op.name "two matrices".toList)

inductive ValueFault [Matrix.Routines] : Operator → Operand → Operand → Fault → Prop
  | quotient {x : Operand} {b : Matrix Float} {cause : Fault}
      (hinverse : b.pseudoInverse = .error cause) : ValueFault div x (.matrix b) cause
  | power {m : Matrix Float} {exponent : Float} {cause : Fault}
      (hpower : m.PowerFault exponent cause) : ValueFault pow (.matrix m) (.scalar exponent) cause
  | powerBehind {m : Matrix Float} {exponent : Float} {cause : Fault}
      (hpower : m.PowerFault exponent cause) : ValueFault pow (.scalar exponent) (.matrix m) cause

/-- Whether the outcome is of the kind that the shapes of the operands call for. -/
def FollowsShapes [Matrix.Routines] (op : Operator) (x y : Operand) : Prop :=
  match op.shapeOf x.shape y.shape with
  | .error cause => op.apply x y = .error cause
  | .ok shape =>
    (∀ value, op.apply x y = .ok value → value.shape = shape) ∧
      ∀ cause, op.apply x y = .error cause ↔ op.ValueFault x y cause

section Outcomes

variable [Matrix.Routines] {op : Operator} {x y value : Operand} {shape : Option (Nat × Nat)}

theorem followsShapes_of_error {cause : Fault}
    (hshape : op.shapeOf x.shape y.shape = .error cause) (happly : op.apply x y = .error cause) :
    op.FollowsShapes x y := by
  rw [FollowsShapes, hshape]
  exact happly

theorem followsShapes_of_ok (hshape : op.shapeOf x.shape y.shape = .ok shape)
    (happly : op.apply x y = .ok value) (hvalue : value.shape = shape)
    (hfault : ∀ cause, ¬op.ValueFault x y cause) : op.FollowsShapes x y := by
  rw [FollowsShapes, hshape, happly]
  refine ⟨fun _ heq => ?_, fun cause => ?_⟩
  · cases heq
    exact hvalue
  · exact iff_of_false nofun (hfault cause)

theorem followsShapes_of_iff (hshape : op.shapeOf x.shape y.shape = .ok shape)
    (hvalue : ∀ value, op.apply x y = .ok value → value.shape = shape)
    (hfault : ∀ cause, op.apply x y = .error cause ↔ op.ValueFault x y cause) :
    op.FollowsShapes x y := by
  rw [FollowsShapes, hshape]
  exact ⟨hvalue, hfault⟩

theorem followsShapes_matrix_scalar (op : Operator) (m : Matrix Float) (exponent : Float) :
    op.FollowsShapes (.matrix m) (.scalar exponent) := by
  cases op with
  | mul | div | add | sub =>
    exact followsShapes_of_ok rfl rfl (by simp [Operand.shape]) nofun
  | mod => exact followsShapes_of_error rfl rfl
  | pow =>
    rcases eq_or_ne m.height m.width with hsquare | hshape
    · refine followsShapes_of_iff (if_pos hsquare) (fun value hvalue => ?_) fun cause => ?_
      · obtain ⟨result, hresult, rfl⟩ := map_eq_ok_iff.1 hvalue
        obtain ⟨hheight, hwidth⟩ := Matrix.shape_of_power hsquare hresult
        rw [Operand.shape, hheight, hwidth]
      · rw [apply, onMatrixScalar, map_eq_error_iff, Matrix.power_eq_error_iff hsquare]
        exact ⟨.power, fun | .power hpower => hpower⟩
    · refine followsShapes_of_error (if_neg hshape) ?_
      rw [apply, onMatrixScalar, Matrix.power_of_ne hshape, map_error]

theorem followsShapes_scalar_matrix (op : Operator) (exponent : Float) (m : Matrix Float) :
    op.FollowsShapes (.scalar exponent) (.matrix m) := by
  cases op with
  | mul | add | sub =>
    exact followsShapes_of_ok rfl rfl (by simp [Operand.shape]) nofun
  | mod => exact followsShapes_of_error rfl rfl
  | div =>
    refine followsShapes_of_iff rfl (fun value hvalue => ?_) fun cause => ?_
    · obtain ⟨inverse, hinverse, hvalue⟩ := bind_eq_ok_iff.1 hvalue
      cases hvalue
      obtain ⟨hheight, hwidth⟩ := Matrix.shape_of_pseudoInverse hinverse
      rw [Operand.shape, Matrix.height_map, Matrix.width_map, hheight, hwidth]
    · rw [apply, onScalarMatrix, bind_eq_error_iff]
      constructor
      · rintro (hinverse | ⟨inverse, -, hinverse⟩)
        · exact .quotient hinverse
        · cases hinverse
      · rintro ⟨hinverse⟩
        exact .inl hinverse
  | pow =>
    rcases eq_or_ne m.height m.width with hsquare | hshape
    · refine followsShapes_of_iff (if_pos hsquare) (fun value hvalue => ?_) fun cause => ?_
      · obtain ⟨result, hresult, rfl⟩ := map_eq_ok_iff.1 hvalue
        obtain ⟨hheight, hwidth⟩ := Matrix.shape_of_power hsquare hresult
        rw [Operand.shape, hheight, hwidth]
      · change Operand.matrix <$> m.power exponent = .error cause ↔ _
        rw [map_eq_error_iff, Matrix.power_eq_error_iff hsquare]
        exact ⟨.powerBehind, fun | .powerBehind hpower => hpower⟩
    · refine followsShapes_of_error (if_neg hshape) ?_
      change Operand.matrix <$> m.power exponent = _
      rw [Matrix.power_of_ne hshape, map_error]

theorem followsShapes_matrices (op : Operator) (a b : Matrix Float) :
    op.FollowsShapes (.matrix a) (.matrix b) := by
  cases op with
  | pow | mod => exact followsShapes_of_error rfl rfl
  | add | sub =>
    by_cases hshape : a.SameShape b
    · exact followsShapes_of_ok (if_pos hshape) (if_pos hshape)
        (by simp [Operand.shape, HAdd.hAdd, Add.add, HSub.hSub, Sub.sub]) nofun
    · exact followsShapes_of_error (if_neg hshape) (if_neg hshape)
  | mul =>
    by_cases hinner : a.width = b.height
    · exact followsShapes_of_ok (if_pos hinner) (if_pos hinner) (by simp [Operand.shape]) nofun
    · exact followsShapes_of_error (if_neg hinner) (if_neg hinner)
  | div =>
    by_cases hwidth : a.width = b.width
    · have happly : div.apply (.matrix a) (.matrix b) =
          (fun inverse => .matrix (a * inverse)) <$> b.pseudoInverse := if_pos hwidth
      refine followsShapes_of_iff (if_pos hwidth) (fun value hvalue => ?_) fun cause => ?_
      · rw [happly] at hvalue
        obtain ⟨inverse, hinverse, rfl⟩ := map_eq_ok_iff.1 hvalue
        rw [Operand.shape, Matrix.height_mul, Matrix.width_mul,
          (Matrix.shape_of_pseudoInverse hinverse).2]
      · rw [happly, map_eq_error_iff]
        exact ⟨.quotient, fun | .quotient hinverse => hinverse⟩
    · exact followsShapes_of_error (if_neg hwidth) (if_neg hwidth)

/-- The shapes of the operands decide the kind of the outcome. -/
theorem followsShapes (op : Operator) (x y : Operand) : op.FollowsShapes x y := by
  cases x with
  | scalar x =>
    cases y with
    | scalar y => exact followsShapes_of_ok rfl rfl rfl nofun
    | matrix m => exact followsShapes_scalar_matrix op x m
  | matrix m =>
    cases y with
    | scalar x => exact followsShapes_matrix_scalar op m x
    | matrix b => exact followsShapes_matrices op m b

theorem shapeOf_of_apply (hvalue : op.apply x y = .ok value) :
    op.shapeOf x.shape y.shape = .ok value.shape := by
  have hfollows := followsShapes op x y
  rw [FollowsShapes] at hfollows
  split at hfollows
  · rw [hfollows] at hvalue
    cases hvalue
  · next hshape => rw [hshape, hfollows.1 value hvalue]

end Outcomes

/-! ## Entries -/

variable {op : Operator} {x y value : Operand}

/-- No operator makes rows or columns vanish. -/
theorem pos_of_shapeOf {left right : Option (Nat × Nat)} {height width : Nat}
    (hleft : ∀ height width, left = some (height, width) → 0 < height ∧ 0 < width)
    (hright : ∀ height width, right = some (height, width) → 0 < height ∧ 0 < width)
    (hshape : op.shapeOf left right = .ok (some (height, width))) : 0 < height ∧ 0 < width := by
  rcases left with _ | ⟨leftHeight, leftWidth⟩ <;> rcases right with _ | ⟨rightHeight, rightWidth⟩
  · cases hshape
  · have hpos := hright _ _ rfl
    cases op <;> simp only [shapeOf, ite_eq_ok_iff, Except.ok.injEq, Option.some.injEq,
      Prod.mk.injEq, reduceCtorEq] at hshape <;> omega
  · have hpos := hleft _ _ rfl
    cases op <;> simp only [shapeOf, ite_eq_ok_iff, Except.ok.injEq, Option.some.injEq,
      Prod.mk.injEq, reduceCtorEq] at hshape <;> omega
  · have hpos := hleft _ _ rfl
    have hpos' := hright _ _ rfl
    cases op <;> simp only [shapeOf, ite_eq_ok_iff, Option.some.injEq,
      Prod.mk.injEq, reduceCtorEq] at hshape <;> omega

theorem shapeOf_some_ne_none (left : Nat × Nat) (right : Option (Nat × Nat)) :
    op.shapeOf (some left) right ≠ .ok none := by
  intro hshape
  cases right <;> cases op <;>
    simp only [shapeOf, ite_eq_ok_iff, Except.ok.injEq, reduceCtorEq, and_false] at hshape

/-- Operands with entries have results with entries. -/
theorem hasEntries_of_apply [Matrix.Routines] (hx : x.HasEntries) (hy : y.HasEntries)
    (hvalue : op.apply x y = .ok value) : value.HasEntries := by
  have hshape := shapeOf_of_apply hvalue
  rw [Operand.hasEntries_iff] at hx hy ⊢
  intro height width hresult
  rw [hresult] at hshape
  exact pos_of_shapeOf hx hy hshape

/-- An operator behind a matrix has a matrix as its value. -/
theorem exists_matrix_of_apply [Matrix.Routines] {m : Matrix Float}
    (hvalue : op.apply (.matrix m) y = .ok value) : ∃ result, value = .matrix result := by
  cases value with
  | matrix result => exact ⟨result, rfl⟩
  | scalar z => exact absurd (shapeOf_of_apply hvalue) (shapeOf_some_ne_none _ _)

end Operator

end MatrixCalculator
