import MatrixCalculator.Proofs.Display
import MatrixCalculator.Proofs.Expression.FlatChain
import MatrixCalculator.Proofs.Expression.Marks
import MatrixCalculator.Proofs.Expression.Resolution

/-!
# Text beside a group

A group is replaced by text, and the text around it stays where it is.  Nothing is put
between them, so what has been two numerals, one of them in parentheses, is one numeral
afterwards: the passes behind the groups cannot tell where it was put together.
-/

namespace MatrixCalculator

open Chain Numeral Outcome Text

namespace Expression

variable {c : Char} {left right text inner value : Text} {previous : Option Char}
  {afterPoint : Bool} {limit : Nat} {evaluate : Text → Except Fault Text}

/-! ## Rounds -/

/-- What stands behind all groups of a text stays behind it. -/
theorem replaceInnermost_append {pending : Option Text} (hopen : '(' ∉ right)
    (hclose : ')' ∉ right) :
    replaceInnermost evaluate pending (text ++ right) =
      (fun result => (result.1 ++ right, result.2)) <$> replaceInnermost evaluate pending text := by
  induction text generalizing pending with
  | nil =>
    cases pending with
    | none =>
      have hcopied : replaceInnermost evaluate none (right ++ []) = _ :=
        replaceInnermost_none_append hopen
      rw [List.append_nil] at hcopied
      rw [List.nil_append, hcopied]
      simp [replaceInnermost]
    | some pending =>
      have hheld : replaceInnermost evaluate (some pending) (right ++ []) = _ :=
        replaceInnermost_some_append hopen hclose
      rw [List.append_nil] at hheld
      rw [List.nil_append, hheld]
      simp [replaceInnermost]
  | cons c text ih =>
    cases pending with
    | none =>
      rw [List.cons_append, replaceInnermost, replaceInnermost]
      split
      · exact ih
      · rw [ih]
        simp [map_eq_pure_bind]
    | some pending =>
      rw [List.cons_append, replaceInnermost, replaceInnermost]
      split
      · rw [ih]
        simp [map_eq_pure_bind]
      · split
        · split
          · rfl
          · simp [ih, map_eq_pure_bind]
        · exact ih

theorem replaceGroups_around (hleft : '(' ∉ left) (hopen : '(' ∉ right) (hclose : ')' ∉ right)
    (rounds : Nat) :
    replaceGroups evaluate rounds (left ++ text ++ right) =
      (fun value => left ++ value ++ right) <$> replaceGroups evaluate rounds text := by
  have hmem : ∀ text : Text, '(' ∈ left ++ text ++ right ↔ '(' ∈ text := by
    simp [hleft, hopen]
  induction rounds generalizing text with
  | zero =>
    rw [replaceGroups, replaceGroups]
    simp only [hmem]
    split <;> rfl
  | succ rounds ih =>
    rw [replaceGroups, replaceGroups]
    simp only [hmem]
    split
    · rw [List.append_assoc, replaceInnermost_none_append hleft,
        replaceInnermost_append hopen hclose]
      simp only [map_eq_pure_bind, bind_assoc, pure_bind]
      refine bind_congr fun result => ?_
      split
      · rw [← List.append_assoc, ih, map_eq_pure_bind]
      · rfl
    · rfl

/-- Text beside the groups stays where it is while they are replaced. -/
theorem resolveGroups_around (hleft : '(' ∉ left) (hopen : '(' ∉ right) (hclose : ')' ∉ right) :
    resolveGroups evaluate (left ++ text ++ right) =
      (fun value => left ++ value ++ right) <$> resolveGroups evaluate text := by
  rw [resolveGroups, List.count_append, List.count_append, List.count_eq_zero_of_not_mem hleft,
    List.count_eq_zero_of_not_mem hopen, Nat.zero_add, Nat.add_zero,
    replaceGroups_around hleft hopen hclose]
  rfl

/-! ## Groups and what stands beside them -/

def grouped (inner : Text) : Text := ['('] ++ inner ++ [')']

/-- The passes up to the groups. -/
def untilGroups (evaluate : Text → Except Fault Text) (text : Text) : Except Fault Text := do
  let text ← canonicalizeLiterals Separators.canonical evaluate text
  let text ← spellFactorials false (spellPercents none text)
  resolveGroups evaluate (← balance text)

theorem passes_eq_untilGroups (limit : Nat) (evaluate : Text → Except Fault Text) (text : Text) :
    passes limit evaluate text = (do
      let text ← untilGroups evaluate text
      let text ← Mark.transpose.applyAll evaluate text
      let text ← Mark.inverse.applyAll evaluate text
      let text ← Application.replaceAll evaluate text
      reduceText limit evaluate (spellConstants none text)) := by
  simp only [passes, untilGroups, bind_assoc]

/-- Whether the passes up to the groups have nothing to do in a text: it is entered, its
literals are canonical, and it has neither groups nor marks. -/
structure IsPlainPart (evaluate : Text → Except Fault Text) (text : Text) : Prop where
  entered : Display.enter Separators.canonical text = text
  keepsLiterals : KeepsLiterals evaluate text
  unmarked : ∀ c ∈ "()%!".toList, c ∉ text

theorem IsPlainPart.append (hleft : IsPlainPart evaluate left)
    (hright : IsPlainPart evaluate right) : IsPlainPart evaluate (left ++ right) where
  entered := by rw [Display.enter_append, hleft.entered, hright.entered]
  keepsLiterals := hleft.keepsLiterals.append hright.keepsLiterals
  unmarked c hc := by simp [hleft.unmarked c hc, hright.unmarked c hc]

theorem isPlainPart_nil : IsPlainPart evaluate [] where
  entered := rfl
  keepsLiterals := keepsLiterals_of_not_mem List.not_mem_nil
  unmarked _ _ := List.not_mem_nil

theorem isPlainPart_symbol (op : Operator) : IsPlainPart evaluate op.symbol := by
  cases op <;>
    exact ⟨by decide, keepsLiterals_of_not_mem (by decide), List.all_iff_forall_prop.1 (by decide)⟩

theorem IsPlainPart.count_paren (htext : IsPlainPart evaluate text) :
    text.count '(' = 0 ∧ text.count ')' = 0 :=
  ⟨List.count_eq_zero_of_not_mem (htext.unmarked _ (by decide)),
    List.count_eq_zero_of_not_mem (htext.unmarked _ (by decide))⟩

theorem IsPlainPart.balanced (htext : IsPlainPart evaluate text) :
    text.count '(' = text.count ')' := by
  rw [htext.count_paren.1, htext.count_paren.2]

theorem balance_of_count (hcount : text.count '(' = text.count ')') : balance text = .ok text := by
  rw [balance, if_neg (by omega), if_pos hcount]

theorem untilGroups_of_isPlainPart (htext : IsPlainPart evaluate text) :
    untilGroups evaluate text = .ok text := by
  rw [untilGroups, htext.keepsLiterals.canonicalizeLiterals_eq, ok_bind,
    spellPercents_eq (htext.unmarked _ (by decide)),
    spellFactorials_eq false (htext.unmarked _ (by decide)), ok_bind,
    balance_of_count htext.balanced, ok_bind, resolveGroups_eq (htext.unmarked _ (by decide))]

/-- Without marks of matrices a plain part has its functions replaced and its constants
spelled out, and is reduced. -/
theorem passes_of_isPlainPart (htext : IsPlainPart evaluate text) (htranspose : 'T' ∉ text)
    (hinverse : '\ufeff' ∉ text) :
    passes limit evaluate text = (do
      let text ← Application.replaceAll evaluate text
      reduceText limit evaluate (spellConstants none text)) := by
  have hnone : cut? Mark.transpose.text text = none :=
    cut?_eq_none (show 'T' ∈ Mark.transpose.text by decide) htranspose
  have hnone' : cut? Mark.inverse.text text = none :=
    cut?_eq_none (show '\ufeff' ∈ Mark.inverse.text by decide) hinverse
  rw [passes_eq_untilGroups, untilGroups_of_isPlainPart htext, ok_bind, applyAll_eq _ _ hnone,
    ok_bind, applyAll_eq _ _ hnone', ok_bind]

/-- Whether the passes up to the groups have nothing to do in a text that stands behind a
group.  It may begin with marks: what is in front of them is no numeral. -/
structure IsPlainBehind (evaluate : Text → Except Fault Text) (text : Text) : Prop where
  entered : Display.enter Separators.canonical text = text
  keepsLiterals : KeepsLiterals evaluate text
  spellPercents_eq : spellPercents (some ')') text = text
  spellFactorials_eq : spellFactorials false text = .ok text
  ungrouped : '(' ∉ text ∧ ')' ∉ text

theorem IsPlainPart.behind (htext : IsPlainPart evaluate text) : IsPlainBehind evaluate text where
  entered := htext.entered
  keepsLiterals := htext.keepsLiterals
  spellPercents_eq := spellPercents_eq (htext.unmarked _ (by decide))
  spellFactorials_eq := spellFactorials_eq false (htext.unmarked _ (by decide))
  ungrouped := ⟨htext.unmarked _ (by decide), htext.unmarked _ (by decide)⟩

variable {before after : Text}

theorem spellPercents_grouped (hbefore : '%' ∉ before)
    (hafter : spellPercents (some ')') after = after) :
    spellPercents none (before ++ grouped inner ++ after) =
      before ++ grouped (spellPercents (some '(') inner) ++ after := by
  have hopen : ∀ previous rest, spellPercents previous ('(' :: rest) =
      '(' :: spellPercents (some '(') rest := fun _ _ => if_neg (by simp)
  have hclose : ∀ previous, spellPercents previous (')' :: after) = ')' :: after := by
    intro previous
    rw [spellPercents, if_neg (by simp), hafter]
  simp only [grouped, List.append_assoc, List.cons_append, List.nil_append]
  rw [spellPercents_append (by decide), spellPercents_eq hbefore, hopen,
    spellPercents_append (by decide), hclose]

theorem spellFactorials_grouped (hbefore : '!' ∉ before)
    (hafter : spellFactorials false after = .ok after) :
    spellFactorials false (before ++ grouped inner ++ after) =
      (fun spelled => before ++ grouped spelled ++ after) <$> spellFactorials false inner := by
  have hclose : spellFactorials false (')' :: after) = .ok (')' :: after) := by
    rw [spellFactorials_cons (by decide), show (')' == '.') = false from rfl, hafter, map_ok]
  simp only [grouped, List.append_assoc, List.cons_append, List.nil_append]
  rw [spellFactorials_append (by decide) (by decide), spellFactorials_eq false hbefore, ok_bind,
    spellFactorials_cons (by decide), show ('(' == '.') = false from rfl,
    spellFactorials_append (by decide) (by decide), hclose]
  simp [map_eq_pure_bind]

theorem untilGroups_grouped (hbefore : IsPlainPart evaluate before)
    (hafter : IsPlainBehind evaluate after) (hliteral : '[' ∉ inner)
    (hbalanced : inner.count '(' = inner.count ')') :
    untilGroups evaluate (before ++ grouped inner ++ after) = (do
      let spelled ← spellFactorials false (spellPercents (some '(') inner)
      (fun value => before ++ value ++ after) <$> resolveGroups evaluate (grouped spelled)) := by
  have hkeeps : KeepsLiterals evaluate (grouped inner) :=
    keepsLiterals_of_not_mem (by simp [grouped, hliteral])
  have hliterals := (hbefore.keepsLiterals.append hkeeps).append hafter.keepsLiterals
  rw [untilGroups, hliterals.canonicalizeLiterals_eq, ok_bind,
    spellPercents_grouped (hbefore.unmarked _ (by decide)) hafter.spellPercents_eq,
    spellFactorials_grouped (hbefore.unmarked _ (by decide)) hafter.spellFactorials_eq]
  cases hspelled : spellFactorials false (spellPercents (some '(') inner) with
  | error cause => rfl
  | ok spelled =>
    have hcount : spelled.count '(' = spelled.count ')' := by
      rw [count_spellFactorials (by decide) (by decide) hspelled,
        count_spellFactorials (by decide) (by decide) hspelled, count_spellPercents (by decide),
        count_spellPercents (by decide), hbalanced]
    have hbehind : after.count '(' = 0 ∧ after.count ')' = 0 :=
      ⟨List.count_eq_zero_of_not_mem hafter.ungrouped.1,
        List.count_eq_zero_of_not_mem hafter.ungrouped.2⟩
    have haround : (before ++ grouped spelled ++ after).count '(' =
        (before ++ grouped spelled ++ after).count ')' := by
      simp [grouped, hcount, hbefore.count_paren, hbehind]
    rw [map_ok, ok_bind, ok_bind, balance_of_count haround, ok_bind,
      resolveGroups_around (hbefore.unmarked _ (by decide)) hafter.ungrouped.1
        hafter.ungrouped.2]

/-- The passes up to the groups put the text of a group in its place and leave alone what
stands beside it. -/
theorem untilGroups_around (hbefore : IsPlainPart evaluate before)
    (hafter : IsPlainBehind evaluate after) (hliteral : '[' ∉ inner)
    (hbalanced : inner.count '(' = inner.count ')') :
    untilGroups evaluate (before ++ grouped inner ++ after) =
      (fun value => before ++ value ++ after) <$> untilGroups evaluate (grouped inner) := by
  have halone : untilGroups evaluate ([] ++ grouped inner ++ []) = _ :=
    untilGroups_grouped isPlainPart_nil isPlainPart_nil.behind hliteral hbalanced
  simp only [List.nil_append, List.append_nil, id_map'] at halone
  rw [untilGroups_grouped hbefore hafter hliteral hbalanced, halone, map_bind]

/-! ## Values -/

/-- Whether an expression in parentheses becomes some text before anything around it is
looked at. -/
structure GroupBecomes (limit : Nat) (inner value : Text) : Prop where
  entered : Display.enter Separators.canonical inner = inner
  noLiteral : '[' ∉ inner
  balanced : inner.count '(' = inner.count ')'
  untilGroups_eq : untilGroups (resolve limit limit) (grouped inner) = .ok value

theorem GroupBecomes.entered_grouped (hgroup : GroupBecomes limit inner value) :
    Display.enter Separators.canonical (grouped inner) = grouped inner := by
  simp only [grouped, Display.enter_append, hgroup.entered]
  rfl

theorem GroupBecomes.keepsLiterals (hgroup : GroupBecomes limit inner value) :
    KeepsLiterals evaluate (grouped inner) :=
  keepsLiterals_of_not_mem (by simp [grouped, hgroup.noLiteral])

/-- A group without others in it becomes the value of the expression in it. -/
theorem groupBecomes_of_resolve (hinner : IsPlainPart (resolve limit limit) inner)
    (hliteral : '[' ∉ inner) (hne : inner ≠ []) (hvalue : resolve limit limit inner = .ok value)
    (hopen : '(' ∉ value) : GroupBecomes limit inner value where
  entered := hinner.entered
  noLiteral := hliteral
  balanced := hinner.balanced
  untilGroups_eq := by
    have hgrouped : untilGroups (resolve limit limit) ([] ++ grouped inner ++ []) = _ :=
      untilGroups_grouped isPlainPart_nil isPlainPart_nil.behind hliteral hinner.balanced
    have hround : replaceInnermost (resolve limit limit) none (grouped inner) =
        .ok (value, true) := by
      rw [grouped, List.append_assoc, List.singleton_append, replaceInnermost_open,
        replaceInnermost_some_append (hinner.unmarked _ (by decide))
          (hinner.unmarked _ (by decide)), replaceInnermost_close (by simpa using hne)]
      simp [hvalue, replaceInnermost, heldBack]
    have hrounds : (grouped inner).count '(' = 1 := by
      simp [grouped, hinner.count_paren]
    rw [spellPercents_eq (hinner.unmarked _ (by decide)),
      spellFactorials_eq false (hinner.unmarked _ (by decide)), ok_bind, resolveGroups, hrounds,
      replaceGroups, if_pos (by simp [grouped]), hround, ok_bind] at hgrouped
    simpa [replaceGroups_of_not_mem hopen] using hgrouped

/-- A group means what its text means in its place. -/
theorem evaluate_around_group (hgroup : GroupBecomes limit inner value)
    (hvalue : IsPlainPart (resolve limit limit) value)
    (hbefore : IsPlainPart (resolve limit limit) before)
    (hafter : IsPlainPart (resolve limit limit) after) :
    Expression.evaluate limit Separators.canonical (before ++ grouped inner ++ after) =
      Expression.evaluate limit Separators.canonical (before ++ value ++ after) := by
  have hspliced : IsPlainPart (resolve limit limit) (before ++ value ++ after) :=
    (hbefore.append hvalue).append hafter
  have hliterals : KeepsLiterals (resolve limit limit) (before ++ grouped inner ++ after) :=
    (hbefore.keepsLiterals.append hgroup.keepsLiterals).append hafter.keepsLiterals
  have hentered : Display.enter Separators.canonical (before ++ grouped inner ++ after) =
      before ++ grouped inner ++ after := by
    rw [Display.enter_append, Display.enter_append, hbefore.entered, hgroup.entered_grouped,
      hafter.entered]
  rw [evaluate_of_entered hentered hliterals,
    evaluate_of_entered hspliced.entered hspliced.keepsLiterals, passes_eq_untilGroups,
    passes_eq_untilGroups, untilGroups_of_isPlainPart hspliced,
    untilGroups_around hbefore hafter.behind hgroup.noLiteral hgroup.balanced, hgroup.untilGroups_eq,
    map_ok]

theorem isPlainPart_signed (s : SignedSpelling) : IsPlainPart evaluate s.text where
  entered := enter_eq (fits_signed s none)
  keepsLiterals := keepsLiterals_of_not_mem (not_mem_signed s (by decide))
  unmarked c hc := by
    have hmarks : ∀ c ∈ "()%!".toList, c ∉ numeralAlphabet :=
      List.all_iff_forall_prop.1 (by decide)
    exact not_mem_signed s (hmarks c hc)

theorem isPlainPart_spelling (s : Spelling) : IsPlainPart evaluate s.text :=
  isPlainPart_signed ⟨false, s⟩

theorem isPlainPart_digits (d : DigitText) : IsPlainPart evaluate d.text :=
  Spelling.text_ofDigits d ▸ isPlainPart_spelling (.ofDigits d)

/-- What the passes leave of an expression is its value, if it is a number as written. -/
theorem evaluate_of_passes {x : Float} (htext : IsPlainPart (resolve limit limit) text)
    (hpasses : passes limit (resolve limit limit) text = .ok (write x))
    (hnumber : x.isNaN = false) :
    Expression.evaluate limit Separators.canonical text = .ok (write x) := by
  have hcontains : contains notANumberWord (write x) = false :=
    (Operand.contains_write_iff (.scalar x)).2 hnumber
  rw [evaluate_of_entered htext.entered htext.keepsLiterals, hpasses, ok_bind,
    operand_scalar hnumber, ok_bind, Operand.write, write_shown, hcontains]
  rfl

theorem passes_signed (s : SignedSpelling) : passes limit evaluate s.text = .ok s.text := by
  rw [passes_eq (keepsLiterals_of_not_mem (not_mem_signed s (by decide))) (fits_signed s none)
    (not_mem_signed s (by decide)) (not_mem_signed s (by decide)),
    reduceText_of_atom (splitAfter_eq ((isPiece_signed s).solid none rfl)) rfl]

/-- A numeral is an expression of its value. -/
theorem evaluate_numeral (s : SignedSpelling) (limit : Nat) :
    Expression.evaluate limit Separators.canonical s.text = .ok (write s.value) := by
  have hcontains : contains notANumberWord (write s.value) = false :=
    (Operand.contains_write_iff (.scalar s.value)).2 s.not_isNaN_value
  have hplain : IsPlainPart (resolve limit limit) s.text := isPlainPart_signed s
  rw [evaluate_of_entered hplain.entered hplain.keepsLiterals, passes_signed, ok_bind,
    operand_signed, ok_bind, Operand.write, hcontains]
  rfl

/-- Two numerals with a hyphen between them are an expression of their difference. -/
theorem evaluate_difference (a b : Spelling) (limit : Nat)
    (hnumber : (a.value - b.value).isNaN = false) :
    Expression.evaluate limit Separators.canonical (a.text ++ '-' :: b.text) =
      .ok (write (a.value - b.value)) := by
  have hfirst : IsPiece a.text := isPiece_signed ⟨false, a⟩
  have hsecond : IsPiece b.text := isPiece_signed ⟨false, b⟩
  have hplain : IsPlainPart (resolve limit limit) (a.text ++ '-' :: b.text) :=
    (isPlainPart_spelling a).append (isPlainPart_signed ⟨true, b⟩)
  have hquiet : Follows IsQuiet none (a.text ++ '-' :: b.text) :=
    (fits_signed ⟨false, a⟩).append (fits_signed ⟨true, b⟩) none
  have hsplit : split (a.text ++ '-' :: b.text) = ⟨[a.text, b.text], [.sub]⟩ := by
    have hlinked : splitAfter none (a.text ++ (Operator.sub.symbol ++ b.text)) = _ :=
      splitAfter_piece .sub rfl hfirst
    rw [splitAfter_eq (hsecond.solid _ (endsOperand_symbol _ .sub))] at hlinked
    exact hlinked
  have hoperands : [a.text, b.text].mapM (operand limit (resolve limit limit)) =
      .ok [.scalar a.value, .scalar b.value] :=
    mapM_operand limit _ [⟨false, a⟩, ⟨false, b⟩]
  refine evaluate_of_passes hplain ?_ hnumber
  rw [passes_eq hplain.keepsLiterals hquiet (hplain.unmarked _ (by decide))
    (hplain.unmarked _ (by decide)), reduceText_of_chain hsplit (List.cons_ne_nil _ _) hoperands,
    reduce_pair]
  rfl

/-- A group means what its text means in its place.  So a numeral and a group that
becomes a numeral are one numeral, or the difference of two where the second one is
negative: there is neither a product in front of a group nor an error behind it. -/
theorem evaluate_beside_group (hgroup : GroupBecomes limit inner value)
    (hvalue : IsPlainPart (resolve limit limit) value) :
    (∀ before after, IsPlainPart (resolve limit limit) before →
      IsPlainPart (resolve limit limit) after →
        Expression.evaluate limit Separators.canonical (before ++ grouped inner ++ after) =
          Expression.evaluate limit Separators.canonical (before ++ value ++ after)) ∧
    ∀ s : SignedSpelling, s.text = value →
      (∀ digits : DigitText, s.negative = false →
        ∃ x, read? (digits.text ++ value) = some x ∧
          Expression.evaluate limit Separators.canonical (digits.text ++ grouped inner) =
            .ok (write x)) ∧
      (∀ a : Spelling, s.negative = true → (a.value - s.magnitude.value).isNaN = false →
        Expression.evaluate limit Separators.canonical (a.text ++ grouped inner) =
          .ok (write (a.value - s.magnitude.value))) ∧
      ∀ digits : DigitText, ∃ x, read? (value ++ digits.text) = some x ∧
        Expression.evaluate limit Separators.canonical (grouped inner ++ digits.text) =
          .ok (write x) := by
  refine ⟨fun _ _ => evaluate_around_group hgroup hvalue, ?_⟩
  have hbehind : ∀ {before}, IsPlainPart (resolve limit limit) before →
      Expression.evaluate limit Separators.canonical (before ++ grouped inner) =
        Expression.evaluate limit Separators.canonical (before ++ value) := by
    intro before hbefore
    simpa using evaluate_around_group hgroup hvalue hbefore isPlainPart_nil
  rintro s rfl
  refine ⟨fun digits hpositive => ?_, fun a hnegative hnumber => ?_, fun digits => ?_⟩
  · have htext : s.text = s.magnitude.text := by rw [SignedSpelling.text, hpositive]; rfl
    obtain ⟨joined, hjoined⟩ := exists_digits_append digits s.magnitude
    rw [hbehind (isPlainPart_digits digits), htext, ← hjoined]
    exact ⟨_, SignedSpelling.read?_text ⟨false, joined⟩, evaluate_numeral ⟨false, joined⟩ limit⟩
  · have htext : s.text = '-' :: s.magnitude.text := by rw [SignedSpelling.text, hnegative]; rfl
    rw [hbehind (isPlainPart_spelling a), htext, evaluate_difference a s.magnitude limit hnumber]
  · obtain ⟨joined, hjoined⟩ := s.exists_append_digits digits
    have hfront : Expression.evaluate limit Separators.canonical (grouped inner ++ digits.text) =
        Expression.evaluate limit Separators.canonical (s.text ++ digits.text) :=
      evaluate_around_group hgroup hvalue isPlainPart_nil (isPlainPart_digits digits)
    rw [hfront, ← hjoined]
    exact ⟨_, joined.read?_text, evaluate_numeral joined limit⟩

theorem evaluate_beside_sum :
    Expression.evaluate 64 Separators.canonical "2(1+2)".toList = .ok "23".toList ∧
      Expression.evaluate 64 Separators.canonical "5(1-3)".toList = .ok "3".toList ∧
      Expression.evaluate 64 Separators.canonical "(1+2)4".toList = .ok "34".toList := by
  have hsum : GroupBecomes 64 "1+2".toList
      (SignedSpelling.text ⟨false, .ofDigits (.single '3' rfl)⟩) :=
    groupBecomes_of_resolve ⟨by decide, keepsLiterals_of_not_mem (by decide),
      List.all_iff_forall_prop.1 (by decide)⟩
      (by decide) (by decide) (by decide +kernel) (by decide)
  have hdifference : GroupBecomes 64 "1-3".toList
      (SignedSpelling.text ⟨true, .ofDigits (.single '2' rfl)⟩) :=
    groupBecomes_of_resolve ⟨by decide, keepsLiterals_of_not_mem (by decide),
      List.all_iff_forall_prop.1 (by decide)⟩
      (by decide) (by decide) (by decide +kernel) (by decide)
  obtain ⟨hfront, -, hbehind⟩ := (evaluate_beside_group hsum (isPlainPart_signed _)).2 _ rfl
  obtain ⟨-, hnegative, -⟩ := (evaluate_beside_group hdifference (isPlainPart_signed _)).2 _ rfl
  obtain ⟨x, hx, hfirst⟩ := hfront (.single '2' rfl) rfl
  obtain ⟨y, hy, hlast⟩ := hbehind (.single '4' rfl)
  have hmiddle := hnegative (.ofDigits (.single '5' rfl)) rfl (by decide +kernel)
  have hxwritten : (some x).map write = some "23".toList := by
    rw [← hx]
    decide +kernel
  have hywritten : (some y).map write = some "34".toList := by
    rw [← hy]
    decide +kernel
  refine ⟨hfirst.trans ?_, hmiddle.trans ?_, hlast.trans ?_⟩
  · exact congrArg _ (Option.some.inj hxwritten)
  · exact congrArg _ (by decide +kernel)
  · exact congrArg _ (Option.some.inj hywritten)

/-- Beside a group the evaluator of expressions with matrices has another value than the
one of scalar expressions, or a value where that has none. -/
theorem evaluate_digit_beside_group :
    Expression.evaluate 64 Separators.canonical "2(3)".toList = .ok "23".toList ∧
      Scalar.solve 64 "2(3)".toList = .ok "6".toList ∧
      Expression.evaluate 64 Separators.canonical "(2)3".toList = .ok "23".toList ∧
      Scalar.solve 64 "(2)3".toList = .error (.unexpectedToken ['3'] 3) := by
  decide +kernel

end Expression

end MatrixCalculator
