import MatrixCalculator.Chain
import MatrixCalculator.Proofs.Text

/-!
# Splitting joined operands

Operands that are joined by operators are found again when the text is split, as long
as nothing inside an operand can be taken for an operator and every operand ends so
that a hyphen behind it is one.
-/

namespace MatrixCalculator.Chain

open Text

variable {previous : Option Char} {text rest : Text}

/-- Whether no operator is found at a character behind another one. -/
def IsSolid (previous : Option Char) (c : Char) : Prop :=
  c ≠ 'm' ∧ operatorAt? previous c = none

/-- Whether a text is one operand wherever an operand may begin, and ends as one. -/
structure IsPiece (text : Text) : Prop where
  solid : ∀ previous, endsOperand previous = false → Follows IsSolid previous text
  ends : ∀ previous, endsOperand (ending previous text) = true

theorem splitAfter_cons {c : Char} (hc : c ≠ 'm') :
    splitAfter previous (c :: text) =
      match operatorAt? previous c with
      | some op => link op (splitAfter (some c) text)
      | none => lengthen c (splitAfter (some c) text) := by
  have hword : ∀ others, c = 'm' → text = 'o' :: 'd' :: others → False :=
    fun _ heq _ => hc heq
  exact splitAfter.eq_3 previous c text hword

/-- The chain of a text that has more in front of its first operand. -/
theorem foldr_lengthen (piece first : Text) (operands : List Text) (operators : List Operator) :
    piece.foldr lengthen ⟨first :: operands, operators⟩ =
      ⟨(piece ++ first) :: operands, operators⟩ := by
  induction piece with
  | nil => rfl
  | cons c piece ih =>
    rw [List.foldr_cons, ih]
    rfl

theorem splitAfter_append (hsolid : Follows IsSolid previous text) :
    splitAfter previous (text ++ rest) =
      text.foldr lengthen (splitAfter (ending previous text) rest) := by
  induction text generalizing previous with
  | nil => rfl
  | cons c text ih =>
    obtain ⟨⟨hc, hnone⟩, hsolid⟩ := hsolid
    rw [List.cons_append, splitAfter_cons hc, hnone, ih hsolid]
    rfl

/-- A text without operators is one operand. -/
theorem splitAfter_eq (hsolid : Follows IsSolid previous text) :
    splitAfter previous text = ⟨[text], []⟩ := by
  rw [← List.append_nil text, splitAfter_append hsolid, splitAfter, foldr_lengthen]

theorem splitAfter_symbol (op : Operator) (hends : op = .sub → endsOperand previous = true) :
    splitAfter previous (op.symbol ++ rest) =
      link op (splitAfter (ending previous op.symbol) rest) := by
  cases op with
  | sub =>
    have hfound : operatorAt? previous '-' = some .sub := if_pos ⟨rfl, hends rfl⟩
    rw [show Operator.sub.symbol = ['-'] from rfl, List.cons_append, List.nil_append,
      splitAfter_cons (by decide), hfound]
    rfl
  | mod => rfl
  | _ =>
    refine (splitAfter_cons (by decide)).trans ?_
    rfl

/-- Behind the symbol of an operator an operand may begin. -/
theorem endsOperand_symbol (previous : Option Char) (op : Operator) :
    endsOperand (ending previous op.symbol) = false := by
  cases op <;> rfl

/-- An operand in front of an operator is the first one of the chain. -/
theorem splitAfter_piece (op : Operator) (hbegins : endsOperand previous = false)
    (hpiece : IsPiece text) :
    splitAfter previous (text ++ (op.symbol ++ rest)) =
      ⟨text :: (splitAfter (ending (ending previous text) op.symbol) rest).operands,
        op :: (splitAfter (ending (ending previous text) op.symbol) rest).operators⟩ := by
  rw [splitAfter_append (hpiece.solid previous hbegins),
    splitAfter_symbol op (fun _ => hpiece.ends previous), link, foldr_lengthen, List.append_nil]

end MatrixCalculator.Chain
