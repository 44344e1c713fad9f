import MatrixCalculator.Proofs.Expression.TypedLiterals

/-!
# Marks behind a literal

The marks behind a literal are applied in two loops over the whole expression, first
all transpositions and then all inverses.  Each loop looks for the literal directly in
front of its mark.  So marks are applied in the order in which they are written where no
transposition stands behind an inverse, and there is no value where one does.
-/

namespace MatrixCalculator

open Expression Numeral Outcome Text

namespace Text

variable {mark text before rest : Text}

theorem eq_append_of_cutLast? (hcut : cutLast? mark text = some (before, rest)) :
    text = before ++ mark ++ rest := by
  obtain ⟨⟨after, front⟩, hfound, heq⟩ := Option.map_eq_some_iff.1 hcut
  cases heq
  have hreverse := congrArg List.reverse (eq_append_of_cut? hfound)
  simpa using hreverse

theorem isSome_cutLast? (before rest : Text) :
    (cutLast? mark (before ++ mark ++ rest)).isSome = true := by
  rw [cutLast?, Option.isSome_map, List.reverse_append, List.reverse_append, ← List.append_assoc]
  exact isSome_cut? _

end Text

/-! ## Where a written literal begins -/

namespace Literal

variable {m : Matrix Float}

/-- No bracket opens directly behind another one that does, except at the head of a
written literal. -/
theorem follows_rows (rows : List (List Float)) {previous : Option Char}
    (hprevious : previous ≠ some '[') :
    Follows (fun previous c => c = '[' → previous ≠ some '[') previous
      (rows.flatMap writeRow ++ [']']) := by
  induction rows generalizing previous with
  | nil => exact ⟨fun hbracket => absurd hbracket (by decide), trivial⟩
  | cons row rows ih =>
    have hbracket : '[' ∉ rowText row :=
      not_mem_rowText (by decide) fun x _ => not_mem_number x (by decide)
    rw [List.flatMap_cons, writeRow_eq, List.append_assoc, follows_append, ending_concat,
      follows_append, follows_append]
    refine ⟨⟨⟨⟨fun _ => hprevious, trivial⟩, ?_⟩, ?_, trivial⟩, ih (by decide)⟩
    · exact follows_of_forall fun before c hc hopen => absurd (hopen ▸ hc) hbracket
    · exact fun hopen => absurd hopen (by decide)

/-- The last place at which a written literal could begin is its head. -/
theorem cutLast?_opening (hm : m.HasEntries) :
    ∃ inside, write m = opening ++ inside ∧ cutLast? opening (write m) = some ([], inside) := by
  have hrows : m.rows ≠ [] := List.length_pos_iff.1 hm.1
  have hsome : (cutLast? opening (write m)).isSome = true := by
    rw [write_eq hrows, List.append_assoc]
    exact isSome_cutLast? [] _
  obtain ⟨⟨before, inside⟩, hcut⟩ := Option.isSome_iff_exists.1 hsome
  have htext := eq_append_of_cutLast? hcut
  cases before with
  | nil => exact ⟨inside, htext, hcut⟩
  | cons c before =>
    have htail : m.rows.flatMap writeRow ++ [']'] = before ++ ['['] ++ ('[' :: inside) := by
      have htail := congrArg List.tail htext
      simpa [write, opening] using htail
    have hfollows : Follows _ none (m.rows.flatMap writeRow ++ [']']) :=
      follows_rows m.rows (by decide)
    rw [htail, follows_append, ending_concat] at hfollows
    exact absurd rfl (hfollows.2.1 rfl)

end Literal

namespace Expression

inductive MarkName where
  | transpose
  | inverse
  deriving DecidableEq, Repr

namespace MarkName

def mark : MarkName → Mark
  | transpose => .transpose
  | inverse => .inverse

def textOf (names : List MarkName) : Text := names.flatMap fun name => name.mark.text

/-- The marks applied in the order in which they are written.  Each of them acts on the
matrix that is read where the one before it has been written. -/
def applyInOrder (names : List MarkName) (m : Matrix Float) : Except Fault (Matrix Float) :=
  names.foldlM (fun m name => name.mark.apply (m.map shown)) m

/-- Whether no transposition stands behind an inverse. -/
def InOrder (names : List MarkName) : Prop :=
  names.Pairwise fun first second => first = inverse → second = inverse

instance (names : List MarkName) : Decidable (InOrder names) :=
  inferInstanceAs (Decidable (List.Pairwise _ _))

variable {names : List MarkName} {name : MarkName} {m value : Matrix Float} {limit : Nat}
  {evaluate : Text → Except Fault Text} {literal rest : Text}

theorem textOf_cons (name : MarkName) (names : List MarkName) :
    textOf (name :: names) = name.mark.text ++ textOf names := List.flatMap_cons

theorem length_le_length_textOf (names : List MarkName) : names.length ≤ (textOf names).length := by
  induction names with
  | nil => exact Nat.zero_le _
  | cons name names ih =>
    have hmark : 0 < name.mark.text.length := by cases name <;> decide
    rw [textOf_cons, List.length_append, List.length_cons]
    omega

theorem textOf_append (left right : List MarkName) :
    textOf (left ++ right) = textOf left ++ textOf right := List.flatMap_append

/-- Marks in order are transpositions and inverses behind them; in all others an inverse
stands in front of a transposition. -/
theorem inOrder_cases (names : List MarkName) :
    (InOrder names ∧ ∃ front back,
        names = List.replicate front transpose ++ List.replicate back inverse) ∨
      ¬InOrder names ∧ ∃ front back,
        names = List.replicate front transpose ++ inverse :: back ∧ transpose ∈ back := by
  induction names with
  | nil => exact .inl ⟨List.Pairwise.nil, 0, 0, rfl⟩
  | cons name names ih =>
    cases name with
    | transpose =>
      have hcons : InOrder (transpose :: names) ↔ InOrder names := by simp [InOrder]
      rw [hcons]
      refine ih.imp ?_ ?_
      · rintro ⟨horder, front, back, rfl⟩
        exact ⟨horder, front + 1, back, by simp [List.replicate_succ]⟩
      · rintro ⟨horder, front, back, rfl, hmem⟩
        exact ⟨horder, front + 1, back, by simp [List.replicate_succ], hmem⟩
    | inverse =>
      by_cases hmem : transpose ∈ names
      · refine .inr ⟨fun horder => ?_, 0, names, rfl, hmem⟩
        exact absurd ((List.pairwise_cons.1 horder).1 _ hmem rfl) (by decide)
      · have hinverse : ∀ name ∈ names, name = inverse := by
          intro name hname
          cases name with
          | transpose => exact absurd hname hmem
          | inverse => rfl
        obtain ⟨back, rfl⟩ : ∃ back, names = List.replicate back inverse :=
          ⟨_, List.eq_replicate_of_mem hinverse⟩
        have horder : InOrder (List.replicate (back + 1) inverse) :=
          List.pairwise_replicate.2 (.inr fun _ => rfl)
        exact .inl ⟨horder, 0, back + 1, rfl⟩

/-! ## One loop -/

theorem not_mem_write_of_head? (name : MarkName) {c : Char}
    (hc : name.mark.text.head? = some c) (x : Operand) : c ∉ x.write := by
  cases name with
  | transpose =>
    cases hc
    exact not_mem_operand x (by decide)
  | inverse =>
    cases hc
    exact not_mem_operand x (by decide)

/-- The first mark behind a written literal is found directly behind it. -/
theorem cut?_mark_of_write (name : MarkName) (m : Matrix Float) (rest : Text) :
    cut? name.mark.text (Literal.write m ++ (name.mark.text ++ rest)) =
      some (Literal.write m, rest) := by
  obtain ⟨c, tail, htext⟩ : ∃ c tail, name.mark.text = c :: tail := by
    cases name <;> exact ⟨_, _, rfl⟩
  have hc : c ∉ Literal.write m :=
    not_mem_write_of_head? name (by rw [htext]; rfl) (.matrix m)
  have hmark : cut? (c :: tail) (c :: tail ++ rest) = some ([], rest) :=
    cut?_mark (List.cons_ne_nil _ _)
  rw [htext, cut?_append hc, hmark]
  simp

theorem literalBefore?_write (hm : m.HasEntries) :
    Mark.literalBefore? (Literal.write m) = some ([], Literal.write m) := by
  have hclose : before? Literal.closing (Literal.write m) =
      some (Literal.opening ++ Literal.rowBreak.intercalate (m.rows.map Literal.rowText)) :=
    before?_eq_some_iff.2 (Literal.write_eq (List.length_pos_iff.1 hm.1))
  obtain ⟨inside, htext, hopen⟩ := Literal.cutLast?_opening hm
  simp [Mark.literalBefore?, hclose, hopen, ← htext]

theorem hasEntries_of_apply (name : MarkName) (hm : m.HasEntries)
    (hvalue : name.mark.apply m = .ok value) : value.HasEntries := by
  cases name with
  | transpose =>
    cases hvalue
    rw [Matrix.HasEntries, Matrix.height_transpose, Matrix.width_transpose]
    exact ⟨hm.2, hm.1⟩
  | inverse =>
    obtain ⟨hheight, hwidth⟩ := Matrix.shape_of_pseudoInverse hvalue
    rw [Matrix.HasEntries, hheight, hwidth]
    exact ⟨hm.2, hm.1⟩

theorem hasEntries_of_applyInOrder (hm : m.HasEntries) (hvalue : applyInOrder names m = .ok value) :
    value.HasEntries := by
  induction names generalizing m with
  | nil =>
    cases hvalue
    exact hm
  | cons name names ih =>
    rw [applyInOrder, List.foldlM_cons] at hvalue
    obtain ⟨first, hfirst, hvalue⟩ := bind_eq_ok_iff.1 hvalue
    exact ih (hasEntries_of_apply _ (hm.map shown) hfirst) hvalue

theorem applyFirst_cons (hevaluate : ∀ x, evaluate (write x) = .ok (write x))
    (hm : m.HasEntries) (count : Nat) :
    name.mark.applyFirst evaluate (count + 1) (Literal.write m ++ (name.mark.text ++ rest)) = (do
      let value ← name.mark.apply (m.map shown)
      name.mark.applyFirst evaluate count (Literal.write value ++ rest)) := by
  rw [Mark.applyFirst, cut?_mark_of_write]
  simp only [literalBefore?_write hm, Literal.read_write hm.1 hm.2 hevaluate, ok_bind,
    List.nil_append]

/-- A loop ends where there is no mark. -/
theorem applyFirst_of_cut? {mark : Mark} {text : Text} (hnone : cut? mark.text text = none)
    (count : Nat) : mark.applyFirst evaluate count text = .ok text := by
  cases count with
  | zero => rfl
  | succ count =>
    rw [Mark.applyFirst, hnone]
    rfl

/-- A loop applies the marks that stand directly behind a literal. -/
theorem applyFirst_replicate (name : MarkName) (hevaluate : ∀ x, evaluate (write x) = .ok (write x))
    (hm : m.HasEntries) (n count : Nat) (rest : Text) :
    name.mark.applyFirst evaluate (n + count)
        (Literal.write m ++ (textOf (List.replicate n name) ++ rest)) = (do
      let value ← applyInOrder (List.replicate n name) m
      name.mark.applyFirst evaluate count (Literal.write value ++ rest)) := by
  induction n generalizing m with
  | zero => simp [textOf, applyInOrder]
  | succ n ih =>
    have htext : textOf (List.replicate (n + 1) name) ++ rest =
        name.mark.text ++ (textOf (List.replicate n name) ++ rest) := by
      rw [List.replicate_succ, textOf_cons, List.append_assoc]
    rw [htext, Nat.add_right_comm, applyFirst_cons hevaluate hm, List.replicate_succ,
      applyInOrder, List.foldlM_cons, bind_assoc]
    cases hvalue : name.mark.apply (m.map shown) with
    | error cause => rfl
    | ok value => exact ih (hasEntries_of_apply name (hm.map shown) hvalue)

/-! ## Transpositions behind inverses -/

theorem cut?_transpose_inverse (names : List MarkName) :
    cut? Mark.transpose.text (textOf (inverse :: names)) =
      (cut? Mark.transpose.text (textOf names)).map
        fun (before, rest) => (Mark.inverse.text ++ before, rest) := by
  -- no transposition begins in the four characters of an inverse
  change cut? ['^', 'T'] ('\ufeff' :: '^' :: '-' :: '1' :: textOf names) = _
  rw [cut?_cons rfl, cut?_cons rfl, cut?_cons rfl, cut?_cons rfl]
  simp only [Option.map_map]
  rfl

theorem cut?_transpose_inverses (n : Nat) :
    cut? Mark.transpose.text (textOf (List.replicate n inverse)) = none := by
  induction n with
  | zero => rfl
  | succ n ih => rw [List.replicate_succ, cut?_transpose_inverse, ih, Option.map_none]

/-- Inverses stand in front of the first transposition. -/
theorem cut?_transpose_of_mem (hmem : transpose ∈ names) :
    ∃ n rest, cut? Mark.transpose.text (textOf names) =
      some (textOf (List.replicate n inverse), rest) := by
  induction names with
  | nil => cases hmem
  | cons name names ih =>
    cases name with
    | transpose => exact ⟨0, textOf names, cut?_mark (List.cons_ne_nil _ _)⟩
    | inverse =>
      obtain ⟨n, rest, hcut⟩ := ih (by simpa using hmem)
      refine ⟨n + 1, rest, ?_⟩
      rw [cut?_transpose_inverse, hcut, List.replicate_succ, textOf_cons]
      rfl

theorem literalBefore?_concat {c : Char} (hc : c ≠ ']') (text : Text) :
    Mark.literalBefore? (text ++ [c]) = none := by
  have hclose : before? Literal.closing (text ++ [c]) = none := by
    by_contra hsome
    obtain ⟨rest, hrest⟩ := Option.ne_none_iff_exists'.1 hsome
    have hlast := congrArg List.getLast? (before?_eq_some_iff.1 hrest)
    exact hc (by simpa [Literal.closing] using hlast)
  rw [Mark.literalBefore?, hclose]
  rfl

/-- A transposition behind an inverse finds no literal in front of it. -/
theorem applyFirst_transpose_of_mem (hmem : transpose ∈ names) (count : Nat) :
    Mark.transpose.applyFirst evaluate (count + 1) (Literal.write m ++ textOf (inverse :: names)) =
      .error (.danglingPostfix Mark.transpose.name) := by
  obtain ⟨n, rest, hcut⟩ : ∃ n rest, cut? Mark.transpose.text (textOf (inverse :: names)) =
      some (textOf (List.replicate n inverse), rest) :=
    cut?_transpose_of_mem (List.mem_cons_of_mem _ hmem)
  obtain ⟨n, rfl⟩ : ∃ k, n = k + 1 := by
    refine Nat.exists_eq_succ_of_ne_zero ?_
    rintro rfl
    rw [cut?_transpose_inverse] at hcut
    obtain ⟨⟨before, tail⟩, -, heq⟩ := Option.map_eq_some_iff.1 hcut
    cases heq
  have hpower : '^' ∉ Literal.write m := not_mem_operand (.matrix m) (by decide)
  have hhead : textOf (List.replicate (n + 1) inverse) =
      textOf (List.replicate n inverse) ++ ['\ufeff', '^', '-'] ++ ['1'] := by
    rw [List.replicate_succ', textOf_append, List.append_assoc]
    rfl
  have hfound : cut? Mark.transpose.text (Literal.write m ++ textOf (inverse :: names)) =
      some (Literal.write m ++ textOf (List.replicate (n + 1) inverse), rest) := by
    refine (cut?_append hpower).trans ?_
    change (cut? Mark.transpose.text _).map _ = _
    rw [hcut]
    rfl
  rw [Mark.applyFirst, hfound, hhead, ← List.append_assoc]
  simp only [literalBefore?_concat (show '1' ≠ ']' by decide), throw_eq_error]

/-- No transposition is found behind a literal with inverses. -/
theorem cut?_transpose_of_inverses (m : Matrix Float) (n : Nat) :
    cut? Mark.transpose.text (Literal.write m ++ textOf (List.replicate n inverse)) = none := by
  have hpower : '^' ∉ Literal.write m := not_mem_operand (.matrix m) (by decide)
  refine (cut?_append hpower).trans ?_
  change (cut? Mark.transpose.text _).map _ = _
  rw [cut?_transpose_inverses, Option.map_none]

/-! ## Both loops -/

theorem applyInOrder_append (left right : List MarkName) (m : Matrix Float) :
    applyInOrder (left ++ right) m = applyInOrder left m >>= applyInOrder right := by
  rw [applyInOrder, List.foldlM_append]
  rfl

/-- Transpositions never fail. -/
theorem exists_applyInOrder_transposes (hm : m.HasEntries) (n : Nat) :
    ∃ value, value.HasEntries ∧ applyInOrder (List.replicate n transpose) m = .ok value := by
  induction n generalizing m with
  | zero => exact ⟨m, hm, rfl⟩
  | succ n ih =>
    have hvalue : (m.map shown).transpose.HasEntries :=
      hasEntries_of_apply transpose (hm.map shown) rfl
    obtain ⟨value, hentries, happly⟩ := ih hvalue
    exact ⟨value, hentries, happly⟩

theorem isPlainPart_textOf (names : List MarkName) : IsPlainPart evaluate (textOf names) := by
  induction names with
  | nil => exact isPlainPart_nil
  | cons name names ih =>
    have hmark : IsPlainPart evaluate name.mark.text := by
      cases name <;> exact ⟨by decide, keepsLiterals_of_not_mem (by decide),
        List.all_iff_forall_prop.1 (by decide)⟩
    exact textOf_cons name names ▸ hmark.append ih

theorem applyAll_inverses (hevaluate : ∀ x, evaluate (write x) = .ok (write x))
    (hm : m.HasEntries) (n : Nat) :
    Mark.inverse.applyAll evaluate (Literal.write m ++ textOf (List.replicate n inverse)) =
      Literal.write <$> applyInOrder (List.replicate n inverse) m := by
  obtain ⟨count, hcount⟩ : ∃ count,
      (Literal.write m ++ textOf (List.replicate n inverse)).length = n + count := by
    have hlength := length_le_length_textOf (List.replicate n inverse)
    rw [List.length_replicate] at hlength
    exact Nat.exists_eq_add_of_le (by rw [List.length_append]; omega)
  have hloop := applyFirst_replicate inverse hevaluate hm n count []
  rw [List.append_nil] at hloop
  rw [Mark.applyAll, hcount, ← mark, hloop, map_eq_pure_bind]
  refine bind_congr fun value => ?_
  have hmark : '\ufeff' ∉ Literal.write value := not_mem_operand (.matrix value) (by decide)
  rw [List.append_nil]
  exact applyFirst_of_cut? (cut?_eq_none (List.mem_cons_self ..) hmark) count

/-- Both loops over a literal with marks apply these in their order, if they are in order. -/
theorem applyAll_textOf (hevaluate : ∀ x, evaluate (write x) = .ok (write x)) (hm : m.HasEntries)
    (names : List MarkName) :
    (Mark.transpose.applyAll evaluate (Literal.write m ++ textOf names) >>=
        Mark.inverse.applyAll evaluate) =
      if InOrder names then Literal.write <$> applyInOrder names m
      else .error (.danglingPostfix Mark.transpose.name) := by
  have hlength : names.length ≤ (Literal.write m ++ textOf names).length := by
    have := length_le_length_textOf names
    rw [List.length_append]
    omega
  rw [Mark.applyAll]
  generalize (Literal.write m ++ textOf names).length = rounds at hlength
  rcases inOrder_cases names with ⟨horder, front, back, rfl⟩ | ⟨horder, front, back, rfl, hmem⟩
  · obtain ⟨value, hentries, hvalue⟩ := exists_applyInOrder_transposes hm front
    obtain ⟨count, rfl⟩ : ∃ count, rounds = front + count := by
      rw [List.length_append, List.length_replicate] at hlength
      exact Nat.exists_eq_add_of_le (by omega)
    have hloop := applyFirst_replicate transpose hevaluate hm front count
      (textOf (List.replicate back inverse))
    rw [hvalue, ok_bind] at hloop
    rw [if_pos horder, textOf_append, ← mark, hloop, mark,
      applyFirst_of_cut? (cut?_transpose_of_inverses value back), ok_bind,
      applyAll_inverses hevaluate hentries, applyInOrder_append, hvalue, ok_bind]
  · obtain ⟨value, hentries, hvalue⟩ := exists_applyInOrder_transposes hm front
    obtain ⟨count, rfl⟩ : ∃ count, rounds = front + (count + 1) := by
      simp only [List.length_append, List.length_replicate, List.length_cons] at hlength
      exact ⟨rounds - (front + 1), by omega⟩
    have hloop := applyFirst_replicate transpose hevaluate hm front (count + 1)
      (textOf (inverse :: back))
    rw [hvalue, ok_bind] at hloop
    rw [if_neg horder, textOf_append, ← mark, hloop, mark, applyFirst_transpose_of_mem hmem,
      error_bind]

end MarkName

open MarkName

variable {limit : Nat} {literal : Text} {m : Matrix Float}

/-- The passes over a literal with marks behind it. -/
theorem passes_marks (hliteral : Literal.Denotes limit literal m) (names : List MarkName) :
    passes limit (resolve limit limit) (Literal.write m ++ textOf names) =
      if InOrder names then Literal.write <$> applyInOrder names m
      else .error (.danglingPostfix Mark.transpose.name) := by
  have hplain := hliteral.isPlainPart.append (isPlainPart_textOf names)
  rw [passes_eq_untilGroups, untilGroups_of_isPlainPart hplain, ok_bind, ← bind_assoc,
    applyAll_textOf (resolve_write_of_le hliteral.one_le) hliteral.hasEntries]
  split
  · rw [map_eq_pure_bind, bind_assoc]
    refine bind_congr fun value => ?_
    have hquiet : Follows IsQuiet none (Literal.write value) := fits_operand (.matrix value) none
    rw [pure_eq_ok, ok_bind, replaceAll_eq _ hquiet, ok_bind, spellConstants_eq hquiet]
    exact reduceText_of_atom (split_write (.matrix value)) rfl
  · rfl

/-- Marks behind a literal are applied in the order in which they are written, with the
matrix written and read between them, where no transposition stands behind an inverse.
Where one does, it is refused. -/
theorem evaluate_marks (hliteral : Literal.Denotes limit literal m) (names : List MarkName) :
    Expression.evaluate limit .canonical (literal ++ textOf names) =
      if InOrder names then do report (.matrix (← applyInOrder names m))
      else .error (.danglingPostfix "transpose".toList) := by
  have hplain := hliteral.isPlainPart
  have hmarks : IsPlainPart (resolve limit limit) (textOf names) := isPlainPart_textOf names
  have hwritten : Expression.evaluate limit .canonical (literal ++ textOf names) =
      Expression.evaluate limit .canonical (Literal.write m ++ textOf names) :=
    hliteral.evaluate_around rfl isPlainPart_nil.keepsLiterals hmarks.entered hmarks.keepsLiterals
  have hpasses := passes_marks hliteral names
  rw [hwritten]
  split
  · next horder =>
    rw [if_pos horder] at hpasses
    cases hvalue : applyInOrder names m with
    | error cause =>
      rw [hvalue, map_error] at hpasses
      rw [evaluate_of_entered (hplain.append hmarks).entered (hplain.append hmarks).keepsLiterals,
        hpasses, error_bind, error_bind]
    | ok value =>
      rw [hvalue, map_ok] at hpasses
      exact evaluate_of_passes_write (x := .matrix value) (hplain.append hmarks).entered
        (hplain.append hmarks).keepsLiterals hpasses
        (operand_matrix (hasEntries_of_applyInOrder hliteral.hasEntries hvalue)
          (resolve_write_of_le hliteral.one_le))
  · next horder =>
    rw [if_neg horder] at hpasses
    rw [evaluate_of_entered (hplain.append hmarks).entered (hplain.append hmarks).keepsLiterals,
      hpasses, error_bind]
    rfl

theorem evaluate_transposes :
    Literal.Denotes 64 "[[1,2][3,4+1]]".toList (Matrix.ofRows 2 [[1, 2], [3, 5]]) ∧
      Expression.evaluate 64 .canonical "[[1,2][3,4+1]]^T^T^T".toList =
        .ok "[[1,3][2,5]]".toList := by
  have hliteral : Literal.Denotes 64 "[[1,2][3,4+1]]".toList
      (Matrix.ofRows 2 [[1, 2], [3, 5]]) := by decide +kernel
  refine ⟨hliteral, (evaluate_marks hliteral [.transpose, .transpose, .transpose]).trans ?_⟩
  decide +kernel

/-- A transposition behind an inverse is refused, although both could be applied. -/
theorem evaluate_inverse_transpose :
    Literal.Denotes 64 "[[2]]".toList (Matrix.ofRows 1 [[2]]) ∧
      (applyInOrder [.inverse, .transpose] (Matrix.ofRows 1 [[2]])).toOption.isSome = true ∧
      Expression.evaluate 64 .canonical ("[[2]]".toList ++ textOf [.inverse, .transpose]) =
        .error (.danglingPostfix "transpose".toList) := by
  decide +kernel

end Expression

end MatrixCalculator
