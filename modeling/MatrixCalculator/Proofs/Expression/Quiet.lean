import MatrixCalculator.Expression.Evaluation
import MatrixCalculator.Proofs.Expression.Literals

/-!
# Expressions that no pass changes

Values, operators and parentheses are written so that the passes over an expression
find nothing in them: no mark, no function and no constant.  What is left of the
passes is the reading of literals and groups and the reduction of the chain.
-/

namespace MatrixCalculator.Expression

open Outcome Text

def alphabet : Text := valueAlphabet ++ [Symbol.times, Symbol.divide] ++ "^mod+()".toList

/-- Whether a character is of the alphabet and begins neither a constant nor, together
with the one in front of it, the middle of a function name. -/
def IsQuiet (previous : Option Char) (c : Char) : Prop :=
  c ∈ alphabet ∧ (c = 'a' → previous = some 'N') ∧ (c = 'e' → isDigit? previous = true)

instance (previous : Option Char) (c : Char) : Decidable (IsQuiet previous c) :=
  inferInstanceAs (Decidable (_ ∧ _))

variable {previous : Option Char} {text : Text}

theorem isQuiet {c : Char} (hmem : c ∈ alphabet) (hlower : c ≠ 'a') (hmark : c ≠ 'e') :
    IsQuiet previous c :=
  ⟨hmem, fun h => absurd h hlower, fun h => absurd h hmark⟩

theorem isQuiet_minus : IsQuiet previous '-' := isQuiet (by decide) (by decide) (by decide)

theorem admitsValues_isQuiet : AdmitsValues IsQuiet where
  digit previous c hc := by
    obtain ⟨hmem, hlower, hmark⟩ := Numeral.of_isDigit
      (fun c => c ∈ alphabet ∧ c ≠ 'a' ∧ c ≠ 'e') (List.all_iff_forall_prop.1 (by decide)) hc
    exact isQuiet hmem hlower hmark
  point previous := isQuiet (by decide) (by decide) (by decide)
  mark c mark hc hmark := by
    rcases hmark with rfl | rfl
    · exact ⟨by decide, fun h => absurd h (by decide), fun _ => hc⟩
    · exact isQuiet (by decide) (by decide) (by decide)
  exponentSign mark hmark := isQuiet_minus
  letter previous c hc := by
    have hletters : ∀ c ∈ Numeral.infinityWord, c ∈ alphabet ∧ c ≠ 'a' ∧ c ≠ 'e' :=
      List.all_iff_forall_prop.1 (by decide)
    obtain ⟨hmem, hlower, hmark⟩ := hletters c hc
    exact isQuiet hmem hlower hmark
  notANumber previous := ⟨isQuiet (by decide) (by decide) (by decide), by decide⟩
  bracket previous c hc := by
    have hbrackets : ∀ c ∈ ['[', ']', ','], c ∈ alphabet ∧ c ≠ 'a' ∧ c ≠ 'e' :=
      List.all_iff_forall_prop.1 (by decide)
    obtain ⟨hmem, hlower, hmark⟩ := hbrackets c hc
    exact isQuiet hmem hlower hmark
  fieldSign := ⟨isQuiet_minus, isQuiet_minus⟩

theorem fits_symbol (op : Operator) : Fits IsQuiet op.symbol := by
  have hsymbol : ∀ c ∈ op.symbol, c ∈ alphabet ∧ c ≠ 'a' ∧ c ≠ 'e' := by
    cases op <;> exact List.all_iff_forall_prop.1 (by decide)
  refine fits_of_forall fun before c hc => ?_
  obtain ⟨hmem, hlower, hmark⟩ := hsymbol c hc
  exact isQuiet hmem hlower hmark

theorem fits_signed (s : Numeral.SignedSpelling) : Fits IsQuiet s.text :=
  fun _ => follows_signed admitsValues_isQuiet.toAdmitsNumerals s isQuiet_minus

theorem fits_operand (x : Operand) : Fits IsQuiet x.write :=
  fun _ => follows_operand admitsValues_isQuiet x isQuiet_minus

theorem mem_alphabet (hquiet : Follows IsQuiet previous text) : ∀ c ∈ text, c ∈ alphabet :=
  hquiet.forall_mem fun _ _ h => h.1

/-- A character outside the alphabet is not in a quiet text. -/
theorem not_mem_of_quiet (hquiet : Follows IsQuiet previous text) {c : Char} (hc : c ∉ alphabet) :
    c ∉ text :=
  fun hmem => hc (mem_alphabet hquiet c hmem)

/-! ## The passes -/

/-- A text of characters that are entered as they are is entered as it is. -/
theorem enter_of_forall (htext : ∀ c ∈ text, Display.isLayout Separators.canonical c = false ∧
    Display.enterChar Separators.canonical c = c) :
    Display.enter Separators.canonical text = text := by
  have hkept : text.filter (fun c => !Display.isLayout Separators.canonical c) = text :=
    List.filter_eq_self.2 fun c hc => by simp [(htext c hc).1]
  have hsame : ∀ c ∈ text, Display.enterChar Separators.canonical c = id c :=
    fun c hc => (htext c hc).2
  rw [Display.enter, hkept, List.map_congr_left hsame, List.map_id]

/-- Entering a text of the alphabet changes nothing. -/
theorem enter_eq (hquiet : Follows IsQuiet previous text) :
    Display.enter Separators.canonical text = text := by
  have hentered : ∀ c ∈ alphabet, Display.isLayout Separators.canonical c = false ∧
      Display.enterChar Separators.canonical c = c :=
    List.all_iff_forall_prop.1 (by decide)
  exact enter_of_forall fun c hc => hentered c (mem_alphabet hquiet c hc)

theorem spellPercents_eq (htext : '%' ∉ text) : spellPercents previous text = text := by
  induction text generalizing previous with
  | nil => rfl
  | cons c text ih =>
    obtain ⟨hne, htext⟩ := not_or.1 (List.mem_cons.not.1 htext)
    rw [spellPercents, if_neg (fun h => hne h.1.symm), ih htext]

theorem spellFactorials_eq (afterPoint : Bool) (htext : '!' ∉ text) :
    spellFactorials afterPoint text = .ok text := by
  induction hlength : text.length using Nat.strong_induction_on generalizing text afterPoint with
  | h length ih =>
    cases text with
    | nil => rw [spellFactorials]; rfl
    | cons c text =>
      have htail : '!' ∉ text := fun h => htext (List.mem_cons_of_mem c h)
      rw [List.length_cons] at hlength
      rw [spellFactorials]
      split
      · have hdrop : '!' ∉ text.dropWhile Char.isDigit :=
          fun h => htail ((List.dropWhile_suffix _).mem h)
        have hshorter := Text.length_dropWhile_le Char.isDigit text
        rw [if_neg, ih _ (by omega) _ hdrop rfl, ok_bind]
        · simp [List.takeWhile_append_dropWhile]
        · rintro ⟨hhead, -⟩
          exact hdrop (List.mem_of_mem_head? hhead)
      · rw [ih text.length (by omega) _ htail rfl]
        rfl

theorem spellConstants_eq (hquiet : Follows IsQuiet previous text) :
    spellConstants previous text = text := by
  induction text generalizing previous with
  | nil => rfl
  | cons c text ih =>
    obtain ⟨⟨hmem, -, hmark⟩, hquiet⟩ := hquiet
    have hpi : c ≠ Symbol.pi := by
      rintro rfl
      exact absurd hmem (by decide)
    rw [spellConstants, if_neg, if_neg hpi, ih hquiet]
    rintro ⟨he, hfirst, -⟩
    simp [hmark he] at hfirst

theorem applyAll_eq (mark : Mark) (evaluate : Text → Except Fault Text)
    (hnone : cut? mark.text text = none) : mark.applyAll evaluate text = .ok text := by
  rw [Mark.applyAll]
  cases text.length with
  | zero => rfl
  | succ count =>
    rw [Mark.applyFirst, hnone]
    rfl

/-- No function name is quiet. -/
theorem not_quiet_spelling : ∀ entry ∈ NamedFunction.spellings, ∃ c name, entry.1 = c :: name ∧
    ¬(c ∈ alphabet ∧ Follows IsQuiet (some c) name) := by
  have hnames : ∀ entry ∈ NamedFunction.spellings, entry.1.head?.any fun c =>
      ¬(c ∈ alphabet ∧ Follows IsQuiet (some c) entry.1.tail) := by decide
  intro entry hentry
  obtain ⟨c, hhead, hquiet⟩ := (Option.any_eq_true _ _).1 (hnames entry hentry)
  exact ⟨c, entry.1.tail, (List.cons_head?_tail hhead).symm, of_decide_eq_true hquiet⟩

theorem atStart?_eq_none (hquiet : Follows IsQuiet previous text) :
    NamedFunction.atStart? text = none := by
  refine List.find?_eq_none.2 fun entry hentry hstarts => ?_
  obtain ⟨c, name, hname, hnot⟩ := not_quiet_spelling entry hentry
  obtain ⟨rest, hrest⟩ := Option.isSome_iff_exists.1 hstarts
  rw [Text.after?_eq_some_iff, hname] at hrest
  rw [hrest] at hquiet
  obtain ⟨hfirst, hothers⟩ := hquiet
  exact hnot ⟨hfirst.1, (follows_append.1 hothers).1⟩

theorem first?_eq_none (hquiet : Follows IsQuiet previous text) :
    Application.first? text = none := by
  induction text generalizing previous with
  | nil => rfl
  | cons c text ih =>
    have hnone : Application.atStart? (c :: text) = none := by
      rw [Application.atStart?, atStart?_eq_none hquiet]
      rfl
    rw [Application.first?, hnone, ih hquiet.2]
    rfl

theorem replaceAll_eq (evaluate : Text → Except Fault Text)
    (hquiet : Follows IsQuiet previous text) :
    Application.replaceAll evaluate text = .ok text := by
  rw [Application.replaceAll]
  cases text.length with
  | zero => rfl
  | succ count =>
    rw [Application.replaceFirst, first?_eq_none hquiet]
    rfl

variable {limit : Nat} {evaluate : Text → Except Fault Text}

/-- The passes over a quiet text whose literals are canonical read its groups first. -/
theorem passes_eq_bind (hliterals : KeepsLiterals evaluate text)
    (hquiet : Follows IsQuiet none text) (hbalanced : text.count '(' = text.count ')') :
    passes limit evaluate text = (do
      let text ← resolveGroups evaluate text
      let text ← Mark.transpose.applyAll evaluate text
      let text ← Mark.inverse.applyAll evaluate text
      let text ← Application.replaceAll evaluate text
      reduceText limit evaluate (spellConstants none text)) := by
  have hbalance : balance text = .ok text := by
    rw [balance, if_neg (by omega), if_pos hbalanced]
  have hpercent : '%' ∉ text := not_mem_of_quiet hquiet (by decide)
  have hfactorial : '!' ∉ text := not_mem_of_quiet hquiet (by decide)
  rw [passes, hliterals.canonicalizeLiterals_eq, ok_bind, spellPercents_eq hpercent,
    spellFactorials_eq false hfactorial, ok_bind, hbalance, ok_bind]

/-- Behind the groups a quiet text only remains to be reduced. -/
theorem passes_of_groups {value : Text}
    (hliterals : KeepsLiterals evaluate text)
    (hquiet : Follows IsQuiet none text) (hbalanced : text.count '(' = text.count ')')
    (hgroups : resolveGroups evaluate text = .ok value) (hvalue : Follows IsQuiet none value) :
    passes limit evaluate text = reduceText limit evaluate value := by
  have htranspose : cut? Mark.transpose.text value = none :=
    cut?_eq_none (show 'T' ∈ Mark.transpose.text by decide) (not_mem_of_quiet hvalue (by decide))
  have hinverse : cut? Mark.inverse.text value = none :=
    cut?_eq_none (show '\ufeff' ∈ Mark.inverse.text by decide)
      (not_mem_of_quiet hvalue (by decide))
  rw [passes_eq_bind hliterals hquiet hbalanced, hgroups, ok_bind, applyAll_eq _ _ htranspose,
    ok_bind, applyAll_eq _ _ hinverse, ok_bind, replaceAll_eq _ hvalue, ok_bind,
    spellConstants_eq hvalue]

theorem passes_of_groups_error {cause : Fault}
    (hliterals : KeepsLiterals evaluate text)
    (hquiet : Follows IsQuiet none text) (hbalanced : text.count '(' = text.count ')')
    (hgroups : resolveGroups evaluate text = .error cause) :
    passes limit evaluate text = .error cause := by
  rw [passes_eq_bind hliterals hquiet hbalanced, hgroups, error_bind]

theorem resolveGroups_eq (htext : '(' ∉ text) : resolveGroups evaluate text = .ok text := by
  rw [resolveGroups, List.count_eq_zero_of_not_mem htext, replaceGroups, if_neg htext]
  rfl

/-- A quiet text without groups only remains to be reduced. -/
theorem passes_eq (hliterals : KeepsLiterals evaluate text)
    (hquiet : Follows IsQuiet none text) (hopen : '(' ∉ text) (hclose : ')' ∉ text) :
    passes limit evaluate text = reduceText limit evaluate text := by
  refine passes_of_groups hliterals hquiet ?_ (resolveGroups_eq hopen) hquiet
  rw [List.count_eq_zero_of_not_mem hopen, List.count_eq_zero_of_not_mem hclose]

/-- Where no mark but percent marks is found, functions are replaced and the rest is reduced. -/
theorem passes_of_unmarked {text spelled replaced : Text} (hliterals : KeepsLiterals evaluate text)
    (hspelled : spellPercents none text = spelled)
    (hmarks : ∀ c ∈ ['!', '(', ')', 'T', '\ufeff'], c ∉ spelled)
    (hreplaced : Application.replaceAll evaluate spelled = .ok replaced)
    (hconstants : spellConstants none replaced = replaced) :
    passes limit evaluate text = reduceText limit evaluate replaced := by
  have hopen := hmarks '(' (by decide)
  have hbalance : balance spelled = .ok spelled := by
    have hcount := List.count_eq_zero_of_not_mem hopen
    have hcount' := List.count_eq_zero_of_not_mem (hmarks ')' (by decide))
    rw [balance, if_neg (by omega), if_pos (by omega)]
  have htranspose : cut? Mark.transpose.text spelled = none :=
    cut?_eq_none (show 'T' ∈ Mark.transpose.text by decide) (hmarks 'T' (by decide))
  have hinverse : cut? Mark.inverse.text spelled = none :=
    cut?_eq_none (show '\ufeff' ∈ Mark.inverse.text by decide) (hmarks '\ufeff' (by decide))
  rw [passes, hliterals.canonicalizeLiterals_eq, ok_bind, hspelled,
    spellFactorials_eq false (hmarks '!' (by decide)), ok_bind, hbalance, ok_bind,
    resolveGroups_eq hopen, ok_bind, applyAll_eq _ _ htranspose, ok_bind,
    applyAll_eq _ _ hinverse, ok_bind, hreplaced, ok_bind, hconstants]

/-- The value of a text that has been entered and whose literals are canonical. -/
theorem evaluate_of_entered (hentered : Display.enter Separators.canonical text = text)
    (hliterals : KeepsLiterals (resolve limit limit) text) :
    Expression.evaluate limit Separators.canonical text = (do
      let resolved ← passes limit (resolve limit limit) text
      let value ← operand limit (resolve limit limit) resolved
      if Text.contains Numeral.notANumberWord value.write then throw .notANumber
      else return value.write) := by
  rw [Expression.evaluate, hentered, hliterals.canonicalizeLiterals_eq, ok_bind, resolve]

/-- The value of a quiet text whose literals are canonical. -/
theorem evaluate_eq_bind (hquiet : Follows IsQuiet none text)
    (hliterals : KeepsLiterals (resolve limit limit) text) :
    Expression.evaluate limit Separators.canonical text = (do
      let resolved ← passes limit (resolve limit limit) text
      let value ← operand limit (resolve limit limit) resolved
      if Text.contains Numeral.notANumberWord value.write then throw .notANumber
      else return value.write) :=
  evaluate_of_entered (enter_eq hquiet) hliterals

end MatrixCalculator.Expression
