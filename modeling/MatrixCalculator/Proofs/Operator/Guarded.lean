import MatrixCalculator.Matrix.Decomposition
import MatrixCalculator.Proofs.Matrix.Eigenvalues
import MatrixCalculator.Proofs.Shape

/-!
# Operators with guarded sums and products

The operators once more, over any way to form the sum, the difference and the product of two
matrices.  A guarded way forms them of matrices whose shapes fit and of no others.  With it
the operators have the values that they have anyway: no step on the way adds or multiplies
matrices that do not fit, those of a repeated product and of a decomposition included.
-/

namespace MatrixCalculator

open Outcome

variable {M : Type → Type} [Monad M]

namespace Matrix

/-- How sums, differences and products of two matrices are formed. -/
structure Arithmetic (M : Type → Type) where
  add : Matrix Float → Matrix Float → M (Matrix Float)
  sub : Matrix Float → Matrix Float → M (Matrix Float)
  mul : Matrix Float → Matrix Float → M (Matrix Float)

namespace Arithmetic

/-- Of any two matrices. -/
def plain : Arithmetic Id where
  add a b := pure (a + b)
  sub a b := pure (a - b)
  mul a b := pure (a * b)

/-- Of matrices that fit, and of no others. -/
def guarded : Arithmetic Option where
  add a b := if a.SameShape b then some (a + b) else none
  sub a b := if a.SameShape b then some (a - b) else none
  mul a b := if a.width = b.height then some (a * b) else none

/-- Whether the sums, differences and products of matrices that fit are the usual ones. -/
structure Agrees (p : Arithmetic M) : Prop where
  add : ∀ {a b}, a.SameShape b → p.add a b = pure (a + b)
  sub : ∀ {a b}, a.SameShape b → p.sub a b = pure (a - b)
  mul : ∀ {a b}, a.width = b.height → p.mul a b = pure (a * b)

theorem agrees_plain : plain.Agrees :=
  ⟨fun _ => rfl, fun _ => rfl, fun _ => rfl⟩

theorem agrees_guarded : guarded.Agrees :=
  ⟨fun h => if_pos h, fun h => if_pos h, fun h => if_pos h⟩

variable (p : Arithmetic M)

/-! ## Operations -/

def pseudoInverse [Routines] (m : Matrix Float) : ExceptT Fault M (Matrix Float) := do
  known m.requireFinite
  let s ← known m.singular
  let bound := s.bound m.height m.width
  let inverted := s.values.map fun x => if bound < x then 1.0 / x else 0.0
  let scaled := List.zipWith (fun left x => left.map (· * x)) s.left inverted
  let left := ofFn m.height scaled.length fun i j => (scaled.getD j []).getD i 0
  return (← p.mul left (ofRows m.width s.right)).transpose

def singularPower [Routines] (m : Matrix Float) (exponent : Float) :
    ExceptT Fault M (Matrix Float) := do
  known m.requireFinite
  let s ← known m.singular
  let n := m.height
  let left := ofFn n n fun i j => (s.left.getD j []).getD i 0
  let right := ofRows n s.right
  p.mul (← p.mul left (diagonal (s.values.map (·.pow exponent)))) right

def mulIf (condition : Prop) [Decidable condition] (a b : Matrix Float) : M (Matrix Float) :=
  if condition then p.mul a b else pure a

/-- The base is squared only if there are steps left. -/
def powerLoop (front base : Matrix Float) (steps : Nat) : M (Matrix Float) :=
  if steps = 0 then pure front
  else do
    let front ← p.mulIf (steps % 2 = 1) front base
    let base ← p.mulIf (steps / 2 ≠ 0) base base
    powerLoop front base (steps / 2)
termination_by steps

def power [Routines] (m : Matrix Float) (exponent : Float) : ExceptT Fault M (Matrix Float) := do
  let _ ← known (m.requireSquare "matrix power".toList)
  if exponent.isFinite = false then throw .notANumber
  else if Numeral.isWhole exponent = false then p.singularPower m exponent
  else
    let base ← if exponent < 0 then p.pseudoInverse m else pure m
    p.powerLoop (identity base.height) base (Numeral.toWord exponent)

end Arithmetic

end Matrix

namespace Operator

variable [Matrix.Routines] (p : Matrix.Arithmetic M) (op : Operator)

def onMatrixScalarBy (m : Matrix Float) (x : Float) : ExceptT Fault M Operand :=
  match op with
  | pow => .matrix <$> p.power m x
  | mul => pure (.matrix (m.map (· * x)))
  | div => pure (.matrix (m.map (· / x)))
  | add => pure (.matrix (m.map (· + x)))
  | sub => pure (.matrix (m.map (· + -x)))
  | mod => throw (op.unsupported "a matrix and a scalar".toList)

def onScalarMatrixBy (x : Float) (m : Matrix Float) : ExceptT Fault M Operand :=
  match op with
  | div => do return .matrix ((← p.pseudoInverse m).map (· * x))
  | mod => throw (op.unsupported "a scalar and a matrix".toList)
  | _ => op.onMatrixScalarBy p m x

def onMatricesBy (a b : Matrix Float) : ExceptT Fault M Operand :=
  match op with
  | add => if a.SameShape b then .matrix <$> liftM (p.add a b) else throw (op.mismatch a b)
  | sub => if a.SameShape b then .matrix <$> liftM (p.sub a b) else throw (op.mismatch a b)
  | mul => if a.width = b.height then .matrix <$> liftM (p.mul a b) else throw (op.mismatch a b)
  | div =>
    if a.width = b.width then do return .matrix (← p.mul a (← p.pseudoInverse b))
    else throw (op.mismatch a b)
  | pow | mod => throw (op.unsupported "two matrices".toList)

/-- The value of an operator, with sums and products formed in the given way. -/
def applyBy : Operand → Operand → ExceptT Fault M Operand
  | .scalar x, .scalar y => pure (.scalar (op.onScalars x y))
  | .matrix m, .scalar x => op.onMatrixScalarBy p m x
  | .scalar x, .matrix m => op.onScalarMatrixBy p x m
  | .matrix a, .matrix b => op.onMatricesBy p a b

end Operator

/-! ## The same values -/

variable [LawfulMonad M] {p : Matrix.Arithmetic M}

namespace Matrix.Arithmetic.Agrees

variable {m : Matrix Float}

/-- The vectors of a decomposition fit together, as many of them as there are values. -/
theorem pseudoInverse [Routines] [LawfulRoutines] (hp : p.Agrees) :
    p.pseudoInverse m = known m.pseudoInverse := by
  rw [Arithmetic.pseudoInverse, Matrix.pseudoInverse]
  cases m.requireFinite with
  | error cause => rw [known_error_bind, error_bind]
  | ok _ =>
    rw [known_ok_bind, ok_bind]
    cases hs : m.singular with
    | error cause => rw [known_error_bind, error_bind]
    | ok s =>
      obtain ⟨hvalues, hleft, hright⟩ := hasCount_of_singular hs
      rw [known_ok_bind, ok_bind]
      dsimp only
      rw [hp.mul (by simp [hvalues, hleft, hright]), liftM_pure_bind]
      rfl

theorem singularPower [Routines] [LawfulRoutines] (hp : p.Agrees) {exponent : Float}
    (hsquare : m.height = m.width) :
    p.singularPower m exponent = known (m.singularPower exponent) := by
  rw [Arithmetic.singularPower, Matrix.singularPower]
  cases m.requireFinite with
  | error cause => rw [known_error_bind, error_bind]
  | ok _ =>
    rw [known_ok_bind, ok_bind]
    cases hs : m.singular with
    | error cause => rw [known_error_bind, error_bind]
    | ok s =>
      obtain ⟨hvalues, -, hright⟩ := hasCount_of_singular hs
      rw [← hsquare, min_self] at hvalues hright
      rw [known_ok_bind, ok_bind]
      dsimp only
      rw [hp.mul (by simp [hvalues]), liftM_pure_bind, hp.mul (by simp [hvalues, hright]),
        liftM_pure_eq_known]
      rfl

omit [LawfulMonad M] in
theorem mulIf (hp : p.Agrees) {condition : Prop} [Decidable condition] {a b : Matrix Float}
    (hinner : a.width = b.height) :
    p.mulIf condition a b = pure (if condition then a * b else a) := by
  rw [Arithmetic.mulIf]
  split
  · exact hp.mul hinner
  · rfl

/-- Each round has a front and a base of one side length. -/
theorem powerLoop (hp : p.Agrees) {n steps : Nat} {front base : Matrix Float}
    (hfront : front.width = n) (hbase : base.height = n ∧ base.width = n) :
    p.powerLoop front base steps = pure (Matrix.powerLoop front base steps) := by
  induction steps using Nat.strong_induction_on generalizing front base with
  | h steps ih =>
    rw [Arithmetic.powerLoop, Matrix.powerLoop]
    split
    · rfl
    · next hsteps =>
      obtain ⟨hheight, hwidth⟩ := hbase
      have hnext : (if steps % 2 = 1 then front * base else front).width = n := by
        split
        · rw [width_mul, hwidth]
        · exact hfront
      rw [hp.mulIf (hfront.trans hheight.symm), pure_bind,
        hp.mulIf (hwidth.trans hheight.symm), pure_bind]
      by_cases hlast : steps / 2 = 0
      · rw [if_neg (not_not.2 hlast), hlast, ih 0 (by omega) hnext ⟨hheight, hwidth⟩,
          powerLoop_zero, powerLoop_zero]
      · rw [if_pos hlast]
        refine ih (steps / 2) (by omega) hnext ⟨?_, ?_⟩
        · rw [height_mul, hheight]
        · rw [width_mul, hwidth]

theorem powerBySquaring (hp : p.Agrees) {steps : Nat} (hsquare : m.height = m.width) :
    p.powerLoop (identity m.height) m steps = pure (m.powerBySquaring steps) :=
  hp.powerLoop (width_identity m.height) ⟨rfl, hsquare.symm⟩

theorem power [Routines] [LawfulRoutines] (hp : p.Agrees) {exponent : Float} :
    p.power m exponent = known (m.power exponent) := by
  rw [Arithmetic.power, requireSquare]
  split
  · next hsquare =>
    rw [known_ok_bind, power_of_eq hsquare]
    split
    · rfl
    split
    · exact hp.singularPower hsquare
    split
    · rw [hp.pseudoInverse]
      cases hinverse : m.pseudoInverse with
      | error cause => rw [known_error_bind, map_error]
      | ok inverse =>
        obtain ⟨hheight, hwidth⟩ := shape_of_pseudoInverse hinverse
        have hside : inverse.height = inverse.width := by rw [hheight, hwidth, hsquare]
        rw [known_ok_bind, map_ok]
        dsimp only
        rw [hp.powerBySquaring hside, liftM_pure_eq_known]
    · rw [pure_bind]
      dsimp only
      rw [hp.powerBySquaring hsquare, liftM_pure_eq_known]
  · next hshape => rw [known_error_bind, power_of_ne hshape]

end Matrix.Arithmetic.Agrees

namespace Operator

section Routines

variable [Matrix.Routines] [Matrix.LawfulRoutines] {op : Operator}

theorem onMatrixScalarBy_eq (hp : p.Agrees) (m : Matrix Float) (x : Float) :
    op.onMatrixScalarBy p m x = known (op.onMatrixScalar m x) := by
  cases op with
  | pow =>
    rw [onMatrixScalarBy, onMatrixScalar, hp.power, map_known]
  | mul | div | mod | add | sub => rfl

theorem onScalarMatrixBy_eq (hp : p.Agrees) (x : Float) (m : Matrix Float) :
    op.onScalarMatrixBy p x m = known (op.onScalarMatrix x m) := by
  cases op with
  | div =>
    rw [onScalarMatrixBy, onScalarMatrix, hp.pseudoInverse]
    cases m.pseudoInverse with
    | error cause => rw [known_error_bind, error_bind]
    | ok inverse =>
      rw [known_ok_bind]
      rfl
  | pow => exact (onMatrixScalarBy_eq hp m x : pow.onMatrixScalarBy p m x = _)
  | mul | mod | add | sub => rfl

theorem onMatricesBy_eq (hp : p.Agrees) (a b : Matrix Float) :
    op.onMatricesBy p a b = known (op.onMatrices a b) := by
  cases op with
  | pow | mod => rfl
  | add =>
    rw [onMatricesBy, onMatrices]
    split
    · next hshape => rw [hp.add hshape, liftM_pure_eq_known, map_known, map_ok]
    · rfl
  | sub =>
    rw [onMatricesBy, onMatrices]
    split
    · next hshape => rw [hp.sub hshape, liftM_pure_eq_known, map_known, map_ok]
    · rfl
  | mul =>
    rw [onMatricesBy, onMatrices]
    split
    · next hshape => rw [hp.mul hshape, liftM_pure_eq_known, map_known, map_ok]
    · rfl
  | div =>
    rw [onMatricesBy, onMatrices]
    split
    · next hwidth =>
      rw [hp.pseudoInverse]
      cases hinverse : b.pseudoInverse with
      | error cause => rw [known_error_bind, error_bind]
      | ok inverse =>
        have hinner : a.width = inverse.height := by
          rw [(Matrix.shape_of_pseudoInverse hinverse).1, hwidth]
        rw [known_ok_bind, hp.mul hinner, liftM_pure_bind]
        rfl
    · rfl

/-- The value of an operator is formed of sums and products of matrices that fit. -/
theorem applyBy_eq (hp : p.Agrees) (x y : Operand) : op.applyBy p x y = known (op.apply x y) := by
  cases x with
  | scalar x =>
    cases y with
    | scalar y => rfl
    | matrix m => exact onScalarMatrixBy_eq hp x m
  | matrix m =>
    cases y with
    | scalar x => exact onMatrixScalarBy_eq hp m x
    | matrix b => exact onMatricesBy_eq hp m b

/-- The value of an operator is formed of sums, differences and products of matrices that
fit, and the shapes of the operands decide the kind of the outcome.  A value has the shape
that these give, with entries again. -/
theorem apply_of_shapes (op : Operator) {x y : Operand} (hx : x.HasEntries) (hy : y.HasEntries) :
    op.applyBy Matrix.Arithmetic.plain x y = op.apply x y ∧
      op.applyBy Matrix.Arithmetic.guarded x y = some (op.apply x y) ∧
      (∀ cause, op.shapeOf x.shape y.shape = .error cause → op.apply x y = .error cause) ∧
      ∀ shape, op.shapeOf x.shape y.shape = .ok shape →
        (∀ value, op.apply x y = .ok value → value.shape = shape ∧ value.HasEntries) ∧
          ∀ cause, op.apply x y = .error cause ↔ op.ValueFault x y cause := by
  have hfollows := followsShapes op x y
  rw [FollowsShapes] at hfollows
  refine ⟨applyBy_eq Matrix.Arithmetic.agrees_plain x y,
    applyBy_eq Matrix.Arithmetic.agrees_guarded x y, fun cause hshape => ?_,
    fun shape hshape => ?_⟩
  · rw [hshape] at hfollows
    exact hfollows
  · rw [hshape] at hfollows
    obtain ⟨hvalue, hfault⟩ := hfollows
    exact ⟨fun value happly => ⟨hvalue value happly, hasEntries_of_apply hx hy happly⟩, hfault⟩

end Routines

/-- A row of two and a column of three do not fit for a product, and the fault says so. -/
theorem apply_row_column :
    mul.applyBy Matrix.Arithmetic.guarded (.matrix (.ofRows 2 [[1, 2]]))
        (.matrix (.ofRows 1 [[1], [2], [3]])) =
      some (.error (.dimensionMismatch mul.name 1 2 3 1)) := by
  obtain ⟨-, hguarded, hfault, -⟩ := apply_of_shapes mul (x := .matrix (.ofRows 2 [[1, 2]]))
    (y := .matrix (.ofRows 1 [[1], [2], [3]])) (by decide) (by decide)
  rw [hguarded, hfault (.dimensionMismatch mul.name 1 2 3 1) rfl]

end Operator

end MatrixCalculator
