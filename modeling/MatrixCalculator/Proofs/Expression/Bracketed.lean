import MatrixCalculator.Proofs.Expression.Operands

/-!
# Bracketed expressions

Expressions in which every operation has parentheses of its own.  Their groups are
replaced in rounds, all innermost ones at once, and every value goes on as its text.
A round is a step on the tree of the expression, and it changes no value: what is
replaced is an operation on two operands by its result.
-/

namespace MatrixCalculator

open Outcome

/-- The tree of an expression in which every operation is in parentheses. -/
inductive Bracketed where
  | operand (x : Operand)
  | operation (left : Bracketed) (op : Operator) (right : Bracketed)

namespace Bracketed

def text : Bracketed → Text
  | operand x => x.write
  | operation left op right => ['('] ++ (left.text ++ (op.symbol ++ (right.text ++ [')'])))

/-- The value of an expression, where an operation is applied to what is shown of the
values of its operands. -/
def eval : Bracketed → Except Fault Operand
  | operand x => .ok x
  | operation left op right => do op.apply (← left.eval).shown (← right.eval).shown

def operands : Bracketed → List Operand
  | operand x => [x]
  | operation left _ right => left.operands ++ right.operands

/-- The expressions that stand inside an expression. -/
def parts : Bracketed → List Bracketed
  | operand _ => []
  | operation left _ right => left :: right :: (left.parts ++ right.parts)

def size : Bracketed → Nat
  | operand _ => 0
  | operation left _ right => left.size + right.size + 1

/-- Whether the value of an expression, if there is one, can stand beside an operator. -/
def HasEmbeddableValue (t : Bracketed) : Prop := ∀ value, t.eval = .ok value → value.IsEmbeddable

/-- Whether the value of everything inside an expression can stand beside an operator. -/
def HasEmbeddableParts : Bracketed → Prop
  | operand _ => True
  | operation left _ right =>
    left.HasEmbeddableParts ∧ right.HasEmbeddableParts ∧
      left.HasEmbeddableValue ∧ right.HasEmbeddableValue

/-- One round: every operation on two operands becomes its result. -/
def collapse : Bracketed → Except Fault Bracketed
  | operand x => .ok (operand x)
  | operation (operand x) op (operand y) => operand <$> op.apply x.shown y.shown
  | operation left op right => do return operation (← left.collapse) op (← right.collapse)

variable {t t' left right : Bracketed} {op : Operator} {value : Operand}

theorem eval_operation_eq_ok_iff : (operation left op right).eval = .ok value ↔
    ∃ x, left.eval = .ok x ∧ ∃ y, right.eval = .ok y ∧ op.apply x.shown y.shown = .ok value := by
  simp only [eval, bind_eq_ok_iff]

/-- What becomes of an operation that is not one on two operands. -/
theorem collapse_operation (hsize : 0 < left.size + right.size) :
    (operation left op right).collapse =
      (do return operation (← left.collapse) op (← right.collapse)) := by
  cases left with
  | operand x =>
    cases right with
    | operand y => simp [size] at hsize
    | operation left' op' right' => rfl
  | operation left' op' right' => rfl

/-- An operation is one on two operands or has more operations inside. -/
theorem size_cases (left right : Bracketed) :
    (∃ x y, left = operand x ∧ right = operand y) ∨ 0 < left.size + right.size := by
  cases left with
  | operand x =>
    cases right with
    | operand y => exact .inl ⟨x, y, rfl, rfl⟩
    | operation left' op' right' => exact .inr (by simp [size])
  | operation left' op' right' => exact .inr (by simp only [size]; omega)

/-- A round changes no value. -/
theorem eval_eq_ok_iff_collapse :
    t.eval = .ok value ↔ ∃ t', t.collapse = .ok t' ∧ t'.eval = .ok value := by
  induction t generalizing value with
  | operand x => simp [collapse]
  | operation left op right ihleft ihright =>
    rcases size_cases left right with ⟨x, y, rfl, rfl⟩ | hsize
    · simp [collapse, map_eq_ok_iff, eval]
    · simp only [collapse_operation hsize, bind_eq_ok_iff, pure_eq_ok, Except.ok.injEq,
        eval_operation_eq_ok_iff, ihleft, ihright]
      constructor
      · rintro ⟨x, ⟨left', hleft, hx⟩, y, ⟨right', hright, hy⟩, hvalue⟩
        exact ⟨_, ⟨left', hleft, right', hright, rfl⟩,
          eval_operation_eq_ok_iff.2 ⟨x, hx, y, hy, hvalue⟩⟩
      · rintro ⟨_, ⟨left', hleft, right', hright, rfl⟩, hvalue⟩
        obtain ⟨x, hx, y, hy, hvalue⟩ := eval_operation_eq_ok_iff.1 hvalue
        exact ⟨x, ⟨left', hleft, hx⟩, y, ⟨right', hright, hy⟩, hvalue⟩

/-- What a round makes of an operation: its result, or the operation on what the round
makes of its operands. -/
theorem collapse_operation_cases (hround : (operation left op right).collapse = .ok t') :
    (∃ result, t' = operand result) ∨ ∃ left' right', 0 < left.size + right.size ∧
      left.collapse = .ok left' ∧ right.collapse = .ok right' ∧ t' = operation left' op right' := by
  rcases size_cases left right with ⟨x, y, rfl, rfl⟩ | hsize
  · obtain ⟨result, -, rfl⟩ := map_eq_ok_iff.1 hround
    exact .inl ⟨result, rfl⟩
  · simp only [collapse_operation hsize, bind_eq_ok_iff, pure_eq_ok, Except.ok.injEq] at hround
    obtain ⟨left', hleft, right', hright, rfl⟩ := hround
    exact .inr ⟨left', right', hsize, hleft, hright, rfl⟩

theorem HasEmbeddableValue.collapse (ht : t.HasEmbeddableValue) (hround : t.collapse = .ok t') :
    t'.HasEmbeddableValue :=
  fun value hvalue => ht value (eval_eq_ok_iff_collapse.2 ⟨t', hround, hvalue⟩)

/-- A round brings no new values into an expression. -/
theorem HasEmbeddableParts.collapse (ht : t.HasEmbeddableParts) (hround : t.collapse = .ok t') :
    t'.HasEmbeddableParts := by
  induction t generalizing t' with
  | operand x =>
    cases hround
    trivial
  | operation left op right ihleft ihright =>
    obtain ⟨hpartsLeft, hpartsRight, hvalueLeft, hvalueRight⟩ := ht
    rcases collapse_operation_cases hround with
      ⟨result, rfl⟩ | ⟨left', right', -, hleft, hright, rfl⟩
    · trivial
    · exact ⟨ihleft hpartsLeft hleft, ihright hpartsRight hright, hvalueLeft.collapse hleft,
        hvalueRight.collapse hright⟩

/-- A round on an expression with operations leaves fewer of them. -/
theorem size_collapse (hround : t.collapse = .ok t') :
    t'.size ≤ t.size ∧ (0 < t.size → t'.size < t.size) := by
  induction t generalizing t' with
  | operand x =>
    cases hround
    exact ⟨le_rfl, fun h => h⟩
  | operation left op right ihleft ihright =>
    rcases collapse_operation_cases hround with
      ⟨result, rfl⟩ | ⟨left', right', hsize, hleft, hright, rfl⟩
    · exact ⟨Nat.zero_le _, fun h => h⟩
    · obtain ⟨hleftLe, hleftLt⟩ := ihleft hleft
      obtain ⟨hrightLe, hrightLt⟩ := ihright hright
      simp only [size]
      by_cases hzero : left.size = 0
      · have := hrightLt (by omega)
        omega
      · have := hleftLt (by omega)
        omega

end Bracketed

end MatrixCalculator
