import MatrixCalculator.Proofs.Expression.Functions
import MatrixCalculator.Proofs.Expression.TypedLiterals
import MatrixCalculator.Proofs.Scalar.UnaryForms

/-!
# Functions of groups

In a scalar expression a function in front of a group is applied to the value of the
group.  In an expression with matrices the group has become text by the time functions
are looked for: a numeral, which the function takes with its sign, or the word for an
infinite number.  The letters of a name and those of the word are one word.
-/

namespace MatrixCalculator

open Chain Expression Numeral Outcome Text

def FlatChain.value (chain : FlatChain) : Float :=
  linkValue Operator.onScalars SignedSpelling.value chain.first chain.links

/-! ## In scalar expressions -/

namespace Scalar

variable {limit : Nat}

theorem endsNumeral_rightParen : EndsNumeral [')'] := by
  rintro _ ⟨⟩
  decide

theorem lexes_applied_group (name : FunctionName) (chain : FlatChain) :
    Lexes (name.1.1 ++ Expression.grouped chain.text)
      (.function name.1.2 ::
        (.leftParen :: linkTokens signedTokens chain.first chain.links ++ [.rightParen])) := by
  have hclose : Lexes [')'] [.rightParen] :=
    lexes_symbol (by decide) (by decide) (by decide) (by decide) (by rfl) lexes_nil
  have hchain := lexes_chain chain.first chain.links endsNumeral_rightParen hclose
  rw [chainTokens_eq] at hchain
  have hgroup : Lexes ('(' :: (chain.text ++ [')'])) (.leftParen :: (_ ++ [.rightParen])) :=
    lexes_symbol (by decide) (by decide) (by decide) (by decide) (by rfl) hchain
  have hopen : EndsWord ('(' :: (chain.text ++ [')'])) := by
    rintro _ ⟨⟩
    decide
  exact lexes_name name (fun _ => hopen) hgroup

/-- A function of a group has the value of the function for the value of the group. -/
theorem solve_applied (name : FunctionName) (chain : FlatChain) (hlimit : 2 ≤ limit) :
    solve limit (name.1.1 ++ Expression.grouped chain.text) =
      report (.scalar (name.1.2.apply chain.value)) := by
  have hchain : Derives 0 .additive (linkTokens signedTokens chain.first chain.links) chain.value :=
    derives_of_grouped (Chain.grouped chain.first chain.links)
      (areOperands_of_unsignedBases chain.unsigned)
  have hderives := (hchain.group.operand.application name.1.2).factor.product
  rw [solve, evaluate_of_derives (lexes_applied_group name chain) hderives hlimit, report_scalar]
  cases (name.1.2.apply chain.value).isNaN <;> rfl

end Scalar

namespace Expression

variable {limit : Nat} {evaluate : Text → Except Fault Text} {text : Text}

/-! ## In front of a numeral -/

theorem isPlainPart_name (name : FunctionName) : IsPlainPart evaluate name.1.1 where
  entered := by
    have hnames : ∀ entry ∈ NamedFunction.spellings,
        Display.enter .canonical entry.1 = entry.1 := by decide
    exact hnames name.1 name.2
  keepsLiterals := by
    have hnames : ∀ entry ∈ NamedFunction.spellings, '[' ∉ entry.1 := by decide
    exact keepsLiterals_of_not_mem (hnames name.1 name.2)
  unmarked c hc := by
    have hnames : ∀ c ∈ "()%!".toList, ∀ entry ∈ NamedFunction.spellings, c ∉ entry.1 :=
      List.all_iff_forall_prop.1 (by decide)
    exact hnames c hc name.1 name.2

/-- A name in front of a text, to which no mark of matrices belongs. -/
theorem passes_name (name : FunctionName) (htext : IsPlainPart evaluate text)
    (hmarks : ∀ c ∈ ['T', '\ufeff'], c ∉ text) :
    passes limit evaluate (name.1.1 ++ text) = (do
      let text ← Application.replaceAll evaluate (name.1.1 ++ text)
      reduceText limit evaluate (spellConstants none text)) := by
  have hnames : ∀ c ∈ ['T', '\ufeff'], ∀ entry ∈ NamedFunction.spellings, c ∉ entry.1 :=
    List.all_iff_forall_prop.1 (by decide)
  have hmissing : ∀ c ∈ ['T', '\ufeff'], c ∉ name.1.1 ++ text := by
    intro c hc
    rw [List.mem_append, not_or]
    exact ⟨hnames c hc name.1 name.2, hmarks c hc⟩
  exact passes_of_isPlainPart ((isPlainPart_name name).append htext) (hmissing _ (by decide))
    (hmissing _ (by decide))

/-- A function of a numeral with a sign is the written value. -/
theorem replaceAll_applied (name : FunctionName) {s : SignedSpelling}
    (hmark : s.magnitude.HasSmallMark) :
    Application.replaceAll evaluate (name.1.1 ++ s.text) =
      if (name.1.2.apply s.value).isNaN then .error .notANumber
      else .ok (write (name.1.2.apply s.value)) := by
  have hfirst := first?_applied name hmark Scalar.endsNumeral_nil
  obtain ⟨count, hcount⟩ : ∃ count, (name.1.1 ++ s.text).length = count + 1 := by
    obtain ⟨c, others, htext, -⟩ := exists_cons_signed s
    exact ⟨name.1.1.length + others.length, by simp [htext, Nat.add_assoc]⟩
  have hreplaced : Application.replace evaluate ⟨[], name.1.2, s.text, []⟩ = _ :=
    replace_applied name.1.2 s rfl
  rw [List.append_nil] at hfirst
  rw [Application.replaceAll, hcount, Application.replaceFirst, hfirst]
  simp only [hreplaced]
  split
  · rfl
  · rw [List.nil_append, List.append_nil, ok_bind]
    exact replaceFirst_of_none (first?_eq_none (fits_operand (.scalar _) none)) count

theorem evaluate_applied (name : FunctionName) {s : SignedSpelling}
    (hmark : s.magnitude.HasSmallMark) :
    Expression.evaluate limit .canonical (name.1.1 ++ s.text) =
      report (.scalar (name.1.2.apply s.value)) := by
  have hplain : IsPlainPart (resolve limit limit) (name.1.1 ++ s.text) :=
    (isPlainPart_name name).append (isPlainPart_signed s)
  have hmarks : ∀ c ∈ ['T', '\ufeff'], c ∉ s.text := by
    have halphabet : ∀ c ∈ ['T', '\ufeff'], c ∉ numeralAlphabet :=
      List.all_iff_forall_prop.1 (by decide)
    exact fun c hc => not_mem_signed s (halphabet c hc)
  have hpasses : passes limit (resolve limit limit) (name.1.1 ++ s.text) = _ :=
    passes_name name (isPlainPart_signed s) hmarks
  rw [replaceAll_applied name hmark] at hpasses
  cases hnumber : (name.1.2.apply s.value).isNaN with
  | true =>
    rw [hnumber, if_pos rfl, error_bind] at hpasses
    rw [evaluate_of_entered hplain.entered hplain.keepsLiterals, hpasses, report_scalar, hnumber]
    rfl
  | false =>
    have hquiet : Follows IsQuiet none (write (name.1.2.apply s.value)) :=
      fits_operand (.scalar _) none
    have hsplit : split (write (name.1.2.apply s.value)) = _ := split_write (.scalar _)
    rw [hnumber, if_neg Bool.false_ne_true, ok_bind, spellConstants_eq hquiet,
      reduceText_of_atom hsplit rfl] at hpasses
    exact evaluate_of_passes_write (x := .scalar (name.1.2.apply s.value)) hplain.entered
      hplain.keepsLiterals hpasses (operand_scalar hnumber)

theorem evaluate_name_finite (name : FunctionName) {x : Float} (hx : x.isFinite = true) :
    Expression.evaluate limit .canonical (name.1.1 ++ write x) =
      report (.scalar (name.1.2.apply (shown x))) := by
  obtain ⟨s, htext, hvalue⟩ := spellsDouble_write hx
  have hmark : s.magnitude.HasSmallMark := by
    refine hasSmallMark_of_forall_isWritten fun c hc => forall_isWritten_write hx c ?_
    rw [← htext, SignedSpelling.text]
    split
    · exact List.mem_cons_of_mem _ hc
    · exact hc
  rw [← htext, ← hvalue, evaluate_applied name hmark]

/-! ## In front of an infinite number -/

/-- The word that is not known where a function stands in front of a written infinite
number: the letters of the name and of the word go together, and of one name a letter is
spelled out as the constant. -/
def unknownWord? (name : FunctionName) (x : Float) : Option Text :=
  if name.1.2 = .det then some ['d']
  else if isNegative x ∨ name.1.1.all Char.isAlpha = false then none
  else some (name.1.1 ++ infinityWord)

def infinityWords : List Text := [infinityWord, '-' :: infinityWord]

theorem write_mem_infinityWords {x : Float} (hx : x.isInf = true) : write x ∈ infinityWords := by
  rw [write_of_isInf hx, signed]
  split <;> decide

/-- A name and a word are one operand, in which only the constant is spelled out. -/
theorem passes_name_word (name : FunctionName) {x : Float} (hx : x.isInf = true) :
    passes limit evaluate (name.1.1 ++ write x) =
      .ok (spellConstants none (name.1.1 ++ write x)) := by
  have hfirst : ∀ word ∈ infinityWords, ∀ entry ∈ NamedFunction.spellings,
      Application.first? (entry.1 ++ word) = none := by decide +kernel
  have hatom : ∀ word ∈ infinityWords, ∀ entry ∈ NamedFunction.spellings,
      (split (spellConstants none (entry.1 ++ word))).operators = [] := by decide +kernel
  have hmarks : ∀ c ∈ ['T', '\ufeff'], c ∉ write x := by
    have halphabet : ∀ c ∈ ['T', '\ufeff'], c ∉ numberAlphabet :=
      List.all_iff_forall_prop.1 (by decide)
    exact fun c hc => not_mem_number x (halphabet c hc)
  have hword := write_mem_infinityWords hx
  rw [passes_name name (isPlainPart_write x) hmarks, Application.replaceAll,
    replaceFirst_of_none (hfirst _ hword name.1 name.2), ok_bind,
    reduceText_of_atom rfl (hatom _ hword name.1 name.2)]

/-- Of a name that is a word and the word behind it none is known. -/
theorem lexemes_name_word (name : FunctionName) {word : Text} (hword : word ∈ infinityWords) :
    (name.1.2 = .det → Scalar.lexemes (spellConstants none (name.1.1 ++ word)) =
        .error (.unknownSymbol ['d'])) ∧
      (name.1.2 ≠ .det → spellConstants none (name.1.1 ++ word) = name.1.1 ++ word) ∧
      (name.1.1.all Char.isAlpha = true → Scalar.lexemes (name.1.1 ++ infinityWord) =
        .error (.unknownSymbol (name.1.1 ++ infinityWord))) := by
  have hfault : ∀ {text : Text} {cause : Fault}, (fun _ => ()) <$> Scalar.lexemes text =
      .error cause → Scalar.lexemes text = .error cause := fun h => map_eq_error_iff.1 h
  have hconstant : ∀ word ∈ infinityWords, ∀ entry ∈ NamedFunction.spellings, entry.2 = .det →
      (fun _ => ()) <$> Scalar.lexemes (spellConstants none (entry.1 ++ word)) =
        .error (.unknownSymbol ['d']) := by
    decide +kernel
  have hspelled : ∀ word ∈ infinityWords, ∀ entry ∈ NamedFunction.spellings, entry.2 ≠ .det →
      spellConstants none (entry.1 ++ word) = entry.1 ++ word := by
    decide +kernel
  have hletters : ∀ entry ∈ NamedFunction.spellings, entry.1.all Char.isAlpha = true →
      (fun _ => ()) <$> Scalar.lexemes (entry.1 ++ infinityWord) =
        .error (.unknownSymbol (entry.1 ++ infinityWord)) := by
    decide +kernel
  exact ⟨fun hdet => hfault (hconstant word hword name.1 name.2 hdet),
    hspelled word hword name.1 name.2, fun halpha => hfault (hletters name.1 name.2 halpha)⟩

/-- A name and a word for an infinite number as a scalar expression. -/
theorem evaluate_spelled_word (name : FunctionName) {x : Float} (hx : x.isInf = true)
    (hlimit : 1 ≤ limit) :
    Scalar.evaluate limit (spellConstants none (name.1.1 ++ write x)) =
      match unknownWord? name x with
      | some word => .error (.unknownSymbol word)
      | none =>
        if (name.1.2.apply x).isNaN then .error .notANumber else .ok (name.1.2.apply x) := by
  obtain ⟨hconstant, hspelled, hletters⟩ := lexemes_name_word name (write_mem_infinityWords hx)
  rw [unknownWord?]
  by_cases hdet : name.1.2 = .det
  · rw [if_pos hdet, Scalar.evaluate, hconstant hdet, error_bind]
  rw [if_neg hdet, hspelled hdet]
  by_cases hread : isNegative x ∨ name.1.1.all Char.isAlpha = false
  · obtain ⟨tokens, htokens, hderives⟩ := Scalar.exists_lexes_infinite hx
    have hends : name.1.1.all Char.isAlpha = true → Scalar.EndsWord (write x) := by
      intro halpha
      have hsign : isNegative x = true := hread.resolve_right (by simp [halpha])
      rw [write_of_isInf hx, signed, if_pos hsign]
      rintro _ ⟨⟩
      decide
    rw [if_pos hread]
    exact Scalar.evaluate_of_derives (Scalar.lexes_name name hends htokens)
      (hderives.application name.1.2).factor.product hlimit
  · obtain ⟨hsign, halpha⟩ := not_or.1 hread
    rw [if_neg hread, write_of_isInf hx, signed, if_neg hsign, Scalar.evaluate,
      hletters (by simpa using halpha), error_bind]

theorem evaluate_name_word (name : FunctionName) {x : Float} (hx : x.isInf = true)
    (hlimit : 1 ≤ limit) :
    Expression.evaluate limit .canonical (name.1.1 ++ write x) =
      match unknownWord? name x with
      | some word => .error (.unknownSymbol word)
      | none => report (.scalar (name.1.2.apply x)) := by
  have hword := write_mem_infinityWords hx
  have hplain : IsPlainPart (resolve limit limit) (name.1.1 ++ write x) :=
    (isPlainPart_name name).append (isPlainPart_write x)
  have hliteral : '[' ∉ spellConstants none (name.1.1 ++ write x) := by
    have hwords : ∀ word ∈ infinityWords, ∀ entry ∈ NamedFunction.spellings,
        '[' ∉ spellConstants none (entry.1 ++ word) := by decide +kernel
    exact hwords _ hword name.1 name.2
  rw [evaluate_of_entered hplain.entered hplain.keepsLiterals, passes_name_word name hx, ok_bind,
    operand_of_no_literal hliteral, evaluate_spelled_word name hx hlimit]
  cases unknownWord? name x with
  | some word => rfl
  | none =>
    have hreport := report_scalar (name.1.2.apply x)
    rw [hreport]
    cases hnumber : (name.1.2.apply x).isNaN with
    | true => rfl
    | false =>
      rw [hnumber, report] at hreport
      exact hreport

/-! ## In front of a group -/

/-- The text that a chain in parentheses becomes: a numeral stays as it is typed, the
value of a longer chain is written. -/
def handedOn (chain : FlatChain) : Text :=
  match chain.links with
  | [] => chain.first.text
  | _ :: _ => write chain.value

theorem isPlainPart_chain (chain : FlatChain) : IsPlainPart evaluate chain.text where
  entered := enter_eq (fits_chainText chain.first chain.links none)
  keepsLiterals := keepsLiterals_of_not_mem (not_mem_chainText (by decide) (by decide) _ _)
  unmarked c hc := by
    have hnumeral : ∀ c ∈ "()%!".toList, c ∉ numeralAlphabet :=
      List.all_iff_forall_prop.1 (by decide)
    have hsymbol : ∀ c ∈ "()%!".toList, c ∉ operatorAlphabet :=
      List.all_iff_forall_prop.1 (by decide)
    exact not_mem_chainText (hnumeral c hc) (hsymbol c hc) _ _

theorem chainText_ne_nil (first : SignedSpelling) (links : Links SignedSpelling) :
    chainText first links ≠ [] := by
  obtain ⟨c, others, htext, -⟩ := exists_cons_signed first
  cases links <;> simp [chainText, htext]

theorem passes_flatChain (chain : FlatChain) :
    passes limit evaluate chain.text = .ok (handedOn chain) := by
  obtain ⟨first, links, hunsigned⟩ := chain
  cases links with
  | nil => exact passes_signed first
  | cons link links =>
    obtain ⟨resolved, hpasses, ⟨-, hlinks⟩ | rfl⟩ :=
      exists_passes_chain ⟨first, link :: links, hunsigned⟩ (Scalar.chainTree_eval _ _)
    · cases hlinks
    · exact hpasses

theorem isPlainPart_handedOn (chain : FlatChain) : IsPlainPart evaluate (handedOn chain) := by
  rw [handedOn]
  split
  · exact isPlainPart_signed chain.first
  · exact isPlainPart_write chain.value

theorem groupBecomes_chain (chain : FlatChain) (hlimit : 1 ≤ limit) :
    GroupBecomes limit chain.text (handedOn chain) := by
  obtain ⟨levels, rfl⟩ := Nat.exists_eq_add_of_le' hlimit
  have hhanded : IsPlainPart (resolve (levels + 1) levels) (handedOn chain) :=
    isPlainPart_handedOn chain
  exact groupBecomes_of_resolve (isPlainPart_chain chain)
    (not_mem_chainText (by decide) (by decide) _ _) (chainText_ne_nil _ _)
    (passes_flatChain chain) (hhanded.unmarked _ (by decide))

theorem evaluate_applied_handedOn (name : FunctionName) (chain : FlatChain) (hlimit : 1 ≤ limit) :
    Expression.evaluate limit .canonical (name.1.1 ++ grouped chain.text) =
      Expression.evaluate limit .canonical (name.1.1 ++ handedOn chain) := by
  simpa using evaluate_around_group (groupBecomes_chain chain hlimit) (isPlainPart_handedOn chain)
    (isPlainPart_name name) isPlainPart_nil

/-- In a scalar expression a function of a chain in parentheses is the function of the
value of the chain.  In an expression with matrices it is the function of the number that
the text of the value shows; and where that text is the word for an infinite number, the
name and the word may be an unknown word together. -/
theorem evaluate_applied_group (name : FunctionName) (chain : FlatChain)
    (hnumber : chain.value.isNaN = false)
    (hmark : chain.links = [] → chain.first.magnitude.HasSmallMark) (hlimit : 2 ≤ limit) :
    Scalar.solve limit (name.1.1 ++ grouped chain.text) =
        report (.scalar (name.1.2.apply chain.value)) ∧
      Expression.evaluate limit .canonical (name.1.1 ++ grouped chain.text) =
        if chain.links = [] then report (.scalar (name.1.2.apply chain.value))
        else if chain.value.isInf then
          match unknownWord? name chain.value with
          | some word => .error (.unknownSymbol word)
          | none => report (.scalar (name.1.2.apply chain.value))
        else report (.scalar (name.1.2.apply (shown chain.value))) := by
  have hdeep : 1 ≤ limit := Nat.le_of_succ_le hlimit
  refine ⟨Scalar.solve_applied name chain hlimit, ?_⟩
  rw [evaluate_applied_handedOn name chain hdeep, handedOn]
  cases hlinks : chain.links with
  | nil =>
    have hvalue : chain.value = chain.first.value := by rw [FlatChain.value, hlinks, linkValue_nil]
    rw [if_pos rfl, hvalue]
    exact evaluate_applied name (hmark hlinks)
  | cons link links =>
    rw [if_neg (List.cons_ne_nil _ _)]
    rcases kind_cases chain.value with hkind | hkind | hkind
    · rw [not_isInf_of_isFinite hkind, if_neg Bool.false_ne_true]
      exact evaluate_name_finite name hkind
    · rw [if_pos hkind]
      exact evaluate_name_word name hkind hdeep
    · rw [hnumber] at hkind
      cases hkind

theorem evaluate_det_quotient :
    Scalar.solve 64 "det(1÷4)".toList = .ok "0.25".toList ∧
      Expression.evaluate 64 .canonical "det(1÷4)".toList = .ok "0.25".toList := by
  have hquotient := evaluate_applied_group ⟨("det".toList, .det), by decide⟩
    ⟨⟨false, .ofDigits (.single '1' rfl)⟩, [(.div, ⟨false, .ofDigits (.single '4' rfl)⟩)],
      nofun, trivial⟩ (by decide +kernel) nofun (Nat.le_add_left 2 62)
  exact ⟨hquotient.1.trans (by decide +kernel), hquotient.2.trans (by decide +kernel)⟩

/-- A name and the word for an infinite number are read as one word. -/
theorem evaluate_det_infinite :
    Scalar.solve 64 "det(1÷0)".toList = .ok infinityWord ∧
      Expression.evaluate 64 .canonical "det(1÷0)".toList = .error (.unknownSymbol ['d']) := by
  decide +kernel

end Expression

end MatrixCalculator
