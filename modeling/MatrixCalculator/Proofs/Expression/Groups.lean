import MatrixCalculator.Proofs.Expression.Bracketed

/-!
# Rounds over the text of an expression

A round over the text of a bracketed expression is the round on its tree.  The text
is read from left to right with the characters since the last parenthesis that opened
held back; these are the operands of an innermost operation, or turn out to stand
outside of one and are put back.
-/

namespace MatrixCalculator.Expression

open Bracketed Outcome Text

variable {evaluate : Text → Except Fault Text} {pending : Option Text} {left right rest : Text}

/-- What has been held back, with the parenthesis in front of it. -/
def heldBack : Option Text → Text
  | none => []
  | some pending => '(' :: pending.reverse

/-! ## Characters -/

theorem replaceInnermost_open :
    replaceInnermost evaluate pending ('(' :: rest) =
      (fun result => (heldBack pending ++ result.1, result.2)) <$>
        replaceInnermost evaluate (some []) rest := by
  cases pending with
  | none =>
    rw [replaceInnermost, if_pos rfl]
    exact (id_map _).symm
  | some pending =>
    rw [replaceInnermost, if_pos rfl, map_eq_pure_bind]
    rfl

/-- Outside of groups characters are copied. -/
theorem replaceInnermost_none_append (hleft : '(' ∉ left) :
    replaceInnermost evaluate none (left ++ right) =
      (fun result => (left ++ result.1, result.2)) <$> replaceInnermost evaluate none right := by
  induction left with
  | nil => exact (id_map _).symm
  | cons c left ih =>
    obtain ⟨hne, hleft⟩ := not_or.1 (List.mem_cons.not.1 hleft)
    rw [List.cons_append, replaceInnermost, if_neg (Ne.symm hne), ih hleft, map_eq_pure_bind,
      bind_assoc, map_eq_pure_bind]
    rfl

/-- Behind a parenthesis that opened characters are held back. -/
theorem replaceInnermost_some_append {pending : Text} (hopen : '(' ∉ left) (hclose : ')' ∉ left) :
    replaceInnermost evaluate (some pending) (left ++ right) =
      replaceInnermost evaluate (some (left.reverse ++ pending)) right := by
  induction left generalizing pending with
  | nil => rfl
  | cons c left ih =>
    obtain ⟨hne, hopen⟩ := not_or.1 (List.mem_cons.not.1 hopen)
    obtain ⟨hne', hclose⟩ := not_or.1 (List.mem_cons.not.1 hclose)
    rw [List.cons_append, replaceInnermost, if_neg (Ne.symm hne), if_neg (Ne.symm hne'),
      ih hopen hclose]
    simp

/-- A parenthesis that closes a group has the group replaced. -/
theorem replaceInnermost_close {pending : Text} (hpending : pending ≠ []) :
    replaceInnermost evaluate (some pending) (')' :: rest) = (do
      let value ← evaluate pending.reverse
      let result ← replaceInnermost evaluate none rest
      return (value ++ result.1, true)) := by
  rw [replaceInnermost, if_neg (by decide), if_pos rfl, if_neg hpending]

/-! ## Rounds -/

theorem paren_not_mem_write (x : Operand) : '(' ∉ x.write ∧ ')' ∉ x.write :=
  ⟨not_mem_operand x (by decide), not_mem_operand x (by decide)⟩

theorem paren_not_mem_symbol (op : Operator) : '(' ∉ op.symbol ∧ ')' ∉ op.symbol :=
  ⟨not_mem_symbol op (by decide), not_mem_symbol op (by decide)⟩

/-- Whether the text of an operation on two operands is evaluated to its result. -/
def AppliesOperators (evaluate : Text → Except Fault Text) : Prop :=
  ∀ (x y : Operand) (op : Operator), x.IsEmbeddable → y.IsEmbeddable →
    evaluate (x.write ++ (op.symbol ++ y.write)) = Operand.write <$> op.apply x.shown y.shown

variable {t : Bracketed} {op : Operator}

theorem replaceInnermost_operands (hevaluate : AppliesOperators evaluate) {x y : Operand}
    (hx : x.IsEmbeddable) (hy : y.IsEmbeddable) :
    replaceInnermost evaluate pending ((operation (.operand x) op (.operand y)).text ++ rest) = (do
      let t' ← (operation (.operand x) op (.operand y)).collapse
      let result ← replaceInnermost evaluate none rest
      return (heldBack pending ++ (t'.text ++ result.1), true)) := by
  have hbody : (x.write ++ (op.symbol ++ y.write)).reverse ≠ [] := by
    cases op <;> simp [Operator.symbol, Symbol.modulo]
  have hheld : (x.write ++ (op.symbol ++ y.write)).reverse =
      y.write.reverse ++ (op.symbol.reverse ++ (x.write.reverse ++ [])) := by simp
  simp only [Bracketed.text, List.append_assoc, List.cons_append, List.nil_append]
  rw [replaceInnermost_open,
    replaceInnermost_some_append (paren_not_mem_write x).1 (paren_not_mem_write x).2,
    replaceInnermost_some_append (paren_not_mem_symbol op).1 (paren_not_mem_symbol op).2,
    replaceInnermost_some_append (paren_not_mem_write y).1 (paren_not_mem_write y).2, ← hheld,
    replaceInnermost_close hbody, List.reverse_reverse, hevaluate x y op hx hy, collapse]
  simp only [map_eq_pure_bind, bind_assoc, pure_bind]
  rfl

/-- A round on a part outside of groups, which is an operation or an operand. -/
theorem exists_replaceInnermost_part (ht : 0 < t.size → ∀ rest,
      replaceInnermost evaluate none (t.text ++ rest) = (do
        let t' ← t.collapse
        let result ← replaceInnermost evaluate none rest
        return (t'.text ++ result.1, true))) :
    ∃ flag : Bool → Bool, ∀ rest, replaceInnermost evaluate none (t.text ++ rest) = (do
      let t' ← t.collapse
      let result ← replaceInnermost evaluate none rest
      return (t'.text ++ result.1, flag result.2)) := by
  cases t with
  | operand x =>
    refine ⟨id, fun rest => ?_⟩
    rw [Bracketed.text, replaceInnermost_none_append (paren_not_mem_write x).1, map_eq_pure_bind]
    rfl
  | operation left op right => exact ⟨fun _ => true, ht (by simp [size])⟩

/-- A round over the text of an operation is the round on its tree. -/
theorem replaceInnermost_text (hevaluate : AppliesOperators evaluate)
    (hparts : t.HasEmbeddableParts) (hsize : 0 < t.size) (pending : Option Text) (rest : Text) :
    replaceInnermost evaluate pending (t.text ++ rest) = (do
      let t' ← t.collapse
      let result ← replaceInnermost evaluate none rest
      return (heldBack pending ++ (t'.text ++ result.1), true)) := by
  induction t generalizing pending rest with
  | operand x => cases hsize
  | operation left op right ihleft ihright =>
    obtain ⟨hpartsLeft, hpartsRight, hvalueLeft, hvalueRight⟩ := hparts
    rcases size_cases left right with ⟨x, y, rfl, rfl⟩ | hinside
    · exact replaceInnermost_operands hevaluate (hvalueLeft x rfl) (hvalueRight y rfl)
    simp only [collapse_operation hinside, Bracketed.text, List.append_assoc, List.cons_append,
      List.nil_append]
    rw [replaceInnermost_open]
    obtain ⟨hopen, hclose⟩ := paren_not_mem_symbol op
    have hend : replaceInnermost evaluate none ([')'] ++ rest) = _ :=
      replaceInnermost_none_append (by decide)
    rw [List.singleton_append] at hend
    cases left with
    | operand x =>
      have hright : 0 < right.size := by simpa [size] using hinside
      obtain ⟨hopen', hclose'⟩ := paren_not_mem_write x
      rw [Bracketed.text, replaceInnermost_some_append hopen' hclose',
        replaceInnermost_some_append hopen hclose, ihright hpartsRight hright, hend]
      simp [map_eq_pure_bind, heldBack, collapse, Bracketed.text]
    | operation left' op' right' =>
      obtain ⟨flag, hflag⟩ := exists_replaceInnermost_part fun hright rest =>
        ihright hpartsRight hright none rest
      have hleft : 0 < (operation left' op' right').size := by simp [size]
      rw [ihleft hpartsLeft hleft, replaceInnermost_none_append hopen, hflag, hend]
      simp [map_eq_pure_bind, heldBack, Bracketed.text]

/-- There are as many groups as operations. -/
theorem count_text (t : Bracketed) : t.text.count '(' = t.size ∧ t.text.count ')' = t.size := by
  induction t with
  | operand x =>
    obtain ⟨hopen, hclose⟩ := paren_not_mem_write x
    exact ⟨List.count_eq_zero_of_not_mem hopen, List.count_eq_zero_of_not_mem hclose⟩
  | operation left op right ihleft ihright =>
    obtain ⟨hopen, hclose⟩ := paren_not_mem_symbol op
    simp only [Bracketed.text, List.count_append, ihleft.1, ihleft.2, ihright.1, ihright.2, size,
      List.count_eq_zero_of_not_mem hopen, List.count_eq_zero_of_not_mem hclose]
    constructor
    · simp
      omega
    · simp
      omega

theorem replaceGroups_of_not_mem {text : Text} (htext : '(' ∉ text) (rounds : Nat) :
    replaceGroups evaluate rounds text = .ok text := by
  cases rounds with
  | zero =>
    rw [replaceGroups, if_neg htext]
    rfl
  | succ rounds =>
    rw [replaceGroups, if_neg htext]
    rfl

/-- Rounds over the text of an expression, as many as there are operations, end with
the text of the value. -/
theorem replaceGroups_text (hevaluate : AppliesOperators evaluate)
    (hparts : t.HasEmbeddableParts) {rounds : Nat} (hrounds : t.size ≤ rounds) {text : Text} :
    replaceGroups evaluate rounds t.text = .ok text ↔
      ∃ value, t.eval = .ok value ∧ value.write = text := by
  induction rounds generalizing t with
  | zero =>
    cases t with
    | operand x =>
      rw [Bracketed.text, replaceGroups_of_not_mem (paren_not_mem_write x).1]
      simp [eval]
    | operation left op right => cases hrounds
  | succ rounds ih =>
    cases t with
    | operand x =>
      rw [Bracketed.text, replaceGroups_of_not_mem (paren_not_mem_write x).1]
      simp [eval]
    | operation left op right =>
      have hsize : 0 < (operation left op right).size := Nat.succ_pos _
      have hmem : '(' ∈ (operation left op right).text := by
        rw [← List.count_pos_iff, (count_text _).1]
        exact hsize
      have hround := replaceInnermost_text hevaluate hparts hsize none []
      have hnil : replaceInnermost evaluate none [] = .ok ([], false) := rfl
      rw [List.append_nil, hnil] at hround
      rw [replaceGroups, if_pos hmem, hround]
      simp only [bind_assoc, ok_bind, pure_eq_ok, heldBack, List.nil_append, List.append_nil,
        if_true, bind_eq_ok_iff]
      constructor
      · rintro ⟨t', ht', hrest⟩
        have hless := (size_collapse ht').2 hsize
        obtain ⟨value, hvalue, hwrite⟩ := (ih (hparts.collapse ht') (by omega)).1 hrest
        exact ⟨value, eval_eq_ok_iff_collapse.2 ⟨t', ht', hvalue⟩, hwrite⟩
      · rintro ⟨value, hvalue, hwrite⟩
        obtain ⟨t', ht', hvalue⟩ := eval_eq_ok_iff_collapse.1 hvalue
        have hless := (size_collapse ht').2 hsize
        exact ⟨t', ht', (ih (hparts.collapse ht') (by omega)).2 ⟨value, hvalue, hwrite⟩⟩

theorem resolveGroups_text (hevaluate : AppliesOperators evaluate)
    (hparts : t.HasEmbeddableParts) {text : Text} :
    resolveGroups evaluate t.text = .ok text ↔ ∃ value, t.eval = .ok value ∧ value.write = text :=
  replaceGroups_text hevaluate hparts (count_text t).1.ge

end MatrixCalculator.Expression
