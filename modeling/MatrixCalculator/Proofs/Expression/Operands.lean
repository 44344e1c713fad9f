import MatrixCalculator.Expression.Evaluation
import MatrixCalculator.Proofs.Chain.Reduction
import MatrixCalculator.Proofs.Expression.Literals
import MatrixCalculator.Proofs.Operand
import MatrixCalculator.Proofs.Scalar.FlatChain
import MatrixCalculator.Proofs.Shape

/-!
# Operands of an expression

What is left of an expression is split at its operators.  Every operand is read on its
own, and the chain of the operands is reduced.  An operand that has been written is
read as it is shown.
-/

namespace MatrixCalculator

/-- Whether an operand can stand beside an operator: an infinite number would be read
as a word, and a matrix without entries has no literal. -/
def Operand.IsEmbeddable : Operand → Prop
  | scalar x => x.isFinite = true
  | matrix m => m.HasEntries

instance : (x : Operand) → Decidable x.IsEmbeddable
  | .scalar x => inferInstanceAs (Decidable (x.isFinite = true))
  | .matrix m => inferInstanceAs (Decidable m.HasEntries)

theorem Operand.IsEmbeddable.hasEntries {x : Operand} (hx : x.IsEmbeddable) : x.HasEntries := by
  cases x with
  | scalar x => trivial
  | matrix m => exact hx

namespace Expression

open Chain Numeral Outcome Text

variable {limit : Nat} {evaluate : Text → Except Fault Text} {text : Text}

theorem not_startsWith_opening (htext : '[' ∉ text) :
    startsWith Literal.opening text = false := by
  rw [startsWith, ← Bool.not_eq_true, Option.isSome_iff_exists]
  rintro ⟨rest, hrest⟩
  exact htext (by simp [after?_eq_some_iff.1 hrest, Literal.opening])

theorem operand_of_no_literal (htext : '[' ∉ text) :
    operand limit evaluate text = .scalar <$> Scalar.evaluate limit text := by
  rw [operand, not_startsWith_opening htext]
  rfl

theorem reduceText_of_atom {chain : Chain Text} (hsplit : split text = chain)
    (hoperators : chain.operators = []) : reduceText limit evaluate text = .ok text := by
  rw [reduceText, hsplit, if_pos (by rw [isAtom, hoperators]; rfl)]
  rfl

theorem reduceText_of_chain {chain : Chain Text} {operands : List Operand}
    (hsplit : split text = chain) (hoperators : chain.operators ≠ [])
    (hoperands : chain.operands.mapM (operand limit evaluate) = .ok operands) :
    reduceText limit evaluate text =
      Operand.write <$> reduce Operator.apply ⟨operands, chain.operators⟩ := by
  have hatom : ¬chain.isAtom = true := by
    rw [isAtom, List.isEmpty_iff]
    exact hoperators
  rw [reduceText, hsplit, if_neg hatom, hoperands, ok_bind]
  rfl

/-! ## Written operands -/

theorem operand_scalar {x : Float} (hx : x.isNaN = false) :
    operand limit evaluate (write x) = .ok (.scalar (shown x)) := by
  rw [operand_of_no_literal (not_mem_number x (by decide)), Scalar.evaluate_write hx, map_ok]

theorem operand_matrix {m : Matrix Float} (hm : m.HasEntries)
    (hevaluate : ∀ x, evaluate (write x) = .ok (write x)) :
    operand limit evaluate (Literal.write m) = .ok (.matrix (m.map shown)) := by
  have hopen : startsWith Literal.opening (Literal.write m) = true := by
    rw [startsWith, Literal.write_eq (List.length_pos_iff.1 hm.1), List.append_assoc,
      after?_eq_some_iff.2 rfl]
    rfl
  rw [operand, if_pos hopen, Literal.read_write hm.1 hm.2 hevaluate, map_ok]

theorem operand_write {x : Operand} (hx : x.IsEmbeddable)
    (hevaluate : ∀ x, evaluate (write x) = .ok (write x)) :
    operand limit evaluate x.write = .ok x.shown := by
  cases x with
  | scalar x => exact operand_scalar (not_isNaN_of_isFinite hx)
  | matrix m => exact operand_matrix hx hevaluate

theorem isPiece_operand {x : Operand} (hx : x.IsEmbeddable) : IsPiece x.write := by
  cases x with
  | scalar x => exact isPiece_write hx
  | matrix m => exact isPiece_literal m

theorem keepsLiterals_operand {x : Operand} (hx : x.HasEntries)
    (hevaluate : ∀ x, evaluate (write x) = .ok (write x)) : KeepsLiterals evaluate x.write := by
  cases x with
  | scalar x => exact keepsLiterals_of_not_mem (not_mem_number x (by decide))
  | matrix m => exact keepsLiterals_write hx.1 hx.2 hevaluate

/-- Two written operands with an operator between them become what is written of the
value for the operands shown. -/
theorem reduceText_pair {x y : Operand} (op : Operator) (hx : x.IsEmbeddable)
    (hy : y.IsEmbeddable) (hevaluate : ∀ x, evaluate (write x) = .ok (write x)) :
    reduceText limit evaluate (x.write ++ (op.symbol ++ y.write)) =
      Operand.write <$> op.apply x.shown y.shown := by
  have hsplit : split (x.write ++ (op.symbol ++ y.write)) = ⟨[x.write, y.write], [op]⟩ := by
    have hsolid := (isPiece_operand hy).solid _
      (endsOperand_symbol (ending none x.write) op)
    rw [split, splitAfter_piece op rfl (isPiece_operand hx), splitAfter_eq hsolid]
  have hoperands : [x.write, y.write].mapM (operand limit evaluate) = .ok [x.shown, y.shown] := by
    rw [List.mapM_cons, List.mapM_cons, List.mapM_nil, operand_write hx hevaluate,
      operand_write hy hevaluate]
    rfl
  rw [reduceText_of_chain hsplit (List.cons_ne_nil _ _) hoperands, reduce_pair]

end Expression

end MatrixCalculator
