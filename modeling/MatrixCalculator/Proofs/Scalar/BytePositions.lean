import MatrixCalculator.Proofs.Text

/-!
# Positions in bytes

A text may be cut at a byte offset only where a character ends.  The cut fails inside a
character and behind the end of the text, so a place at which it can be made is a valid
position.
-/

namespace MatrixCalculator.Text

variable {text before rest piece : Text} {offset : Nat}

/-- What is in front of a byte offset and what is behind it, if a text can be cut there. -/
def splitAtByte? : (offset : Nat) → Text → Option (Text × Text)
  | 0, text => some ([], text)
  | _ + 1, [] => none
  | offset + 1, c :: text =>
    if c.utf8Size ≤ offset + 1 then
      (splitAtByte? (offset + 1 - c.utf8Size) text).map fun (before, rest) => (c :: before, rest)
    else none

theorem splitAtByte?_zero (text : Text) : splitAtByte? 0 text = some ([], text) := by
  rw [splitAtByte?]

theorem splitAtByte?_append (before rest : Text) :
    splitAtByte? (byteLength before) (before ++ rest) = some (before, rest) := by
  induction before with
  | nil => exact splitAtByte?_zero rest
  | cons c before ih =>
    have hpos := c.utf8Size_pos
    obtain ⟨offset, hoffset⟩ : ∃ offset, byteLength (c :: before) = offset + 1 :=
      Nat.exists_eq_succ_of_ne_zero (by rw [byteLength]; omega)
    have hinner : offset + 1 - c.utf8Size = byteLength before := by
      rw [← hoffset, byteLength, Nat.add_sub_cancel_left]
    have hfits : c.utf8Size ≤ offset + 1 := by
      rw [← hoffset, byteLength]
      exact Nat.le_add_right _ _
    rw [hoffset, List.cons_append, splitAtByte?, if_pos hfits, hinner, ih, Option.map_some]

/-- A text can be cut behind its parts, and nowhere else. -/
theorem splitAtByte?_eq_some_iff :
    splitAtByte? offset text = some (before, rest) ↔
      text = before ++ rest ∧ byteLength before = offset := by
  constructor
  · intro hsplit
    induction text generalizing offset before with
    | nil =>
      cases offset with
      | zero =>
        rw [splitAtByte?_zero] at hsplit
        cases hsplit
        exact ⟨rfl, rfl⟩
      | succ offset => cases hsplit
    | cons c text ih =>
      cases offset with
      | zero =>
        rw [splitAtByte?_zero] at hsplit
        cases hsplit
        exact ⟨rfl, rfl⟩
      | succ offset =>
        rw [splitAtByte?] at hsplit
        split at hsplit
        · next hfits =>
          obtain ⟨⟨inner, tail⟩, hinner, hpair⟩ := Option.map_eq_some_iff.1 hsplit
          cases hpair
          obtain ⟨rfl, hlength⟩ := ih hinner
          refine ⟨rfl, ?_⟩
          rw [byteLength, hlength]
          omega
        · cases hsplit
  · rintro ⟨rfl, rfl⟩
    exact splitAtByte?_append before rest

def restAt? (text : Text) (offset : Nat) : Option Text := (splitAtByte? offset text).map Prod.snd

/-- What stands between two byte offsets. -/
def slice? (text : Text) (start stop : Nat) : Option Text := do
  let rest ← text.restAt? start
  if start ≤ stop then (splitAtByte? (stop - start) rest).map Prod.fst else none

theorem restAt?_eq (before rest : Text) :
    (before ++ rest).restAt? (byteLength before) = some rest := by
  rw [restAt?, splitAtByte?_append, Option.map_some]

theorem slice?_eq (before piece rest : Text) :
    (before ++ (piece ++ rest)).slice? (byteLength before) (byteLength (before ++ piece)) =
      some piece := by
  rw [slice?, restAt?_eq, Option.bind_eq_bind, Option.bind_some, byteLength_append,
    if_pos (Nat.le_add_right _ _), Nat.add_sub_cancel_left, splitAtByte?_append,
    Option.map_some]

/-! ## Lengths -/

theorem byteLength_pos (hne : text ≠ []) : 0 < byteLength text := by
  obtain ⟨c, others, rfl⟩ := List.exists_cons_of_ne_nil hne
  exact Nat.add_pos_left c.utf8Size_pos _

theorem byteLength_of_forall (htext : ∀ c ∈ text, c.utf8Size = 1) :
    byteLength text = text.length := by
  induction text with
  | nil => rfl
  | cons c text ih =>
    rw [List.forall_mem_cons] at htext
    rw [byteLength, htext.1, ih htext.2, List.length_cons, Nat.add_comm]

end MatrixCalculator.Text
