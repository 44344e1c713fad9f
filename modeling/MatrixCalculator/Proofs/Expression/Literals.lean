import MatrixCalculator.Expression.Literals
import MatrixCalculator.Proofs.Literal

/-!
# Canonical literals in an expression

The first pass reads all literals of a text and writes them again.  It goes from left
to right, so a text in which every literal is a written one passes part by part, and
comes out as it was.
-/

namespace MatrixCalculator.Expression

open Outcome Text

variable {separators : Separators} {evaluate : Text → Except Fault Text}
  {text left right before inside body rest : Text}

theorem canonicalizeLiterals_of_no_opening (hopen : cut? Literal.opening text = none) :
    canonicalizeLiterals separators evaluate text = .ok text := by
  rw [canonicalizeLiterals]
  split
  · rfl
  · next hsome =>
    rw [hopen] at hsome
    cases hsome

theorem canonicalizeLiterals_of_no_closing
    (hopen : cut? Literal.opening text = some (before, inside))
    (hclose : cut? Literal.closing inside = none) :
    canonicalizeLiterals separators evaluate text =
      .error (.malformedLiteral (Literal.opening ++ inside)) := by
  rw [canonicalizeLiterals]
  split
  · next hnone =>
    rw [hopen] at hnone
    cases hnone
  · next hsome =>
    rw [hopen] at hsome
    cases hsome
    split
    · rfl
    · next hfound =>
      rw [hclose] at hfound
      cases hfound

theorem canonicalizeLiterals_of_cut?
    (hopen : cut? Literal.opening text = some (before, inside))
    (hclose : cut? Literal.closing inside = some (body, rest)) :
    canonicalizeLiterals separators evaluate text = (do
      let m ← Literal.read separators evaluate (Literal.opening ++ body ++ Literal.closing)
      return before ++ Literal.write m ++ (← canonicalizeLiterals separators evaluate rest)) := by
  rw [canonicalizeLiterals]
  split
  · next hnone =>
    rw [hopen] at hnone
    cases hnone
  · next hsome =>
    rw [hopen] at hsome
    cases hsome
    split
    · next hmissing =>
      rw [hclose] at hmissing
      cases hmissing
    · next hfound =>
      rw [hclose] at hfound
      cases hfound
      rfl

/-- Whether the literals at the head of a text are canonical already. -/
def KeepsLiterals (evaluate : Text → Except Fault Text) (text : Text) : Prop :=
  ∀ rest, canonicalizeLiterals Separators.canonical evaluate (text ++ rest) =
    (text ++ ·) <$> canonicalizeLiterals Separators.canonical evaluate rest

theorem KeepsLiterals.append (hleft : KeepsLiterals evaluate left)
    (hright : KeepsLiterals evaluate right) : KeepsLiterals evaluate (left ++ right) := by
  intro rest
  rw [List.append_assoc, hleft, hright, Functor.map_map]
  simp only [List.append_assoc]

theorem KeepsLiterals.canonicalizeLiterals_eq (hkeeps : KeepsLiterals evaluate text) :
    canonicalizeLiterals Separators.canonical evaluate text = .ok text := by
  have hnil : canonicalizeLiterals Separators.canonical evaluate [] = .ok [] :=
    canonicalizeLiterals_of_no_opening rfl
  have happend := hkeeps []
  rwa [hnil, map_ok, List.append_nil] at happend

/-- A character that begins no literal stays. -/
theorem keepsLiterals_singleton {c : Char} (hc : c ≠ '[') : KeepsLiterals evaluate [c] := by
  intro rest
  have hcut : cut? Literal.opening (c :: rest) = _ :=
    cut?_cons (after?_eq_none_of_ne (Ne.symm hc))
  rw [List.singleton_append]
  cases hopen : cut? Literal.opening rest with
  | none =>
    rw [hopen] at hcut
    rw [canonicalizeLiterals_of_no_opening hcut, canonicalizeLiterals_of_no_opening hopen]
    rfl
  | some parts =>
    obtain ⟨before, inside⟩ := parts
    rw [hopen] at hcut
    cases hclose : cut? Literal.closing inside with
    | none =>
      rw [canonicalizeLiterals_of_no_closing hcut hclose,
        canonicalizeLiterals_of_no_closing hopen hclose, map_error]
    | some parts =>
      obtain ⟨body, tail⟩ := parts
      rw [canonicalizeLiterals_of_cut? hcut hclose, canonicalizeLiterals_of_cut? hopen hclose,
        map_bind]
      simp only [map_bind]
      rfl

theorem keepsLiterals_of_not_mem (htext : '[' ∉ text) : KeepsLiterals evaluate text := by
  induction text with
  | nil => exact fun rest => (id_map _).symm
  | cons c text ih =>
    obtain ⟨hne, htext⟩ := not_or.1 (List.mem_cons.not.1 htext)
    exact (keepsLiterals_singleton (Ne.symm hne)).append (ih htext)

/-- A written literal stays, where none begins in front of it. -/
theorem canonicalizeLiterals_before_write {m : Matrix Float}
    (hopen : cut? Literal.opening text = some (before, inside)) (hheight : 0 < m.height)
    (hwidth : 0 < m.width) (hevaluate : ∀ x, evaluate (Numeral.write x) = .ok (Numeral.write x)) :
    canonicalizeLiterals Separators.canonical evaluate (before ++ (Literal.write m ++ rest)) =
      (before ++ Literal.write m ++ ·) <$>
        canonicalizeLiterals Separators.canonical evaluate rest := by
  have hrows : m.rows ≠ [] := List.length_pos_iff.1 hheight
  have hread := Literal.read_write hheight hwidth hevaluate
  have hfound : cut? Literal.opening (before ++ (Literal.write m ++ rest)) = some (before,
      Literal.rowBreak.intercalate (m.rows.map Literal.rowText) ++ (Literal.closing ++ rest)) := by
    rw [Literal.write_eq hrows, List.append_assoc, List.append_assoc, ← List.append_assoc]
    exact cut?_of_cut? hopen _
  rw [Literal.write_eq hrows] at hread
  rw [canonicalizeLiterals_of_cut? hfound (Literal.cut?_closing hrows), hread, ok_bind,
    Literal.write_map_shown, map_eq_pure_bind]

theorem keepsLiterals_write {m : Matrix Float} (hheight : 0 < m.height) (hwidth : 0 < m.width)
    (hevaluate : ∀ x, evaluate (Numeral.write x) = .ok (Numeral.write x)) :
    KeepsLiterals evaluate (Literal.write m) := by
  have hopen : cut? Literal.opening (Literal.opening ++ []) = some ([], []) :=
    cut?_mark (List.cons_ne_nil _ _)
  exact fun rest => canonicalizeLiterals_before_write hopen hheight hwidth hevaluate

end MatrixCalculator.Expression
