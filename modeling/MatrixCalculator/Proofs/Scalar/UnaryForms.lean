import MatrixCalculator.Proofs.Chain.UnaryForms
import MatrixCalculator.Proofs.Scalar.FlatChain

/-!
# Unary forms as scalar expressions

In the grammar a percent mark is a postfix and so the base of a power, a sign and a
function have the power behind them as their argument.  On a chain that leaves the forms
to its operands the scalar evaluator finds the value of the chain in doubles.
-/

namespace MatrixCalculator

open Chain Numeral

namespace Scalar

variable {first next t : UnaryTerm} {links : Links UnaryTerm} {rest : Text} {tokens : List Token}

/-! ## Tokens -/

def unaryTokens (t : UnaryTerm) : List Token :=
  match t.form with
  | .bare => [.number t.numeral.value]
  | .negated => [.operator .sub, .number t.numeral.value]
  | .percent => [.number t.numeral.value, .percent]
  | .applied name => [.function name.1.2, .number t.numeral.value]

/-- A function is spelled as one of two characters or as a word. -/
theorem spelling_cases : ∀ entry ∈ NamedFunction.spellings,
    entry = ([Symbol.squareRoot], .sqrt) ∨ entry = ([Symbol.cubeRoot], .cbrt) ∨
      (entry.1.all Char.isAlpha = true ∧ NamedFunction.ofName? entry.1 = some entry.2 ∧
        entry.1.head?.any fun c => !Text.isBlank c && !c.isDigit && c != '.') := by
  decide

/-- A name is one token, where no letter goes on with it if it is a word. -/
theorem lexes_name (name : FunctionName)
    (hrest : name.1.1.all Char.isAlpha = true → EndsWord rest) (htokens : Lexes rest tokens) :
    Lexes (name.1.1 ++ rest) (.function name.1.2 :: tokens) := by
  obtain ⟨entry, hentry⟩ := name
  obtain rfl | rfl | ⟨hletters, hname, hhead⟩ := spelling_cases entry hentry
  · exact lexes_symbol (by decide) (by decide) (by decide) (by decide) (by rfl) htokens
  · exact lexes_symbol (by decide) (by decide) (by decide) (by decide) (by rfl) htokens
  · obtain ⟨spelling, f⟩ := entry
    cases spelling with
    | nil => cases hhead
    | cons c word =>
      have hplain : (Text.isBlank c = false ∧ c.isDigit = false) ∧ c ≠ '.' := by simpa using hhead
      have htoken : wordToken (c :: word) = .ok (.function f) := by rw [wordToken, hname]
      exact lexes_word (List.all_eq_true.1 hletters) hplain.1.1 hplain.1.2 hplain.2 htoken
        (hrest hletters) htokens

theorem lexes_term (t : UnaryTerm) (hrest : EndsNumeral rest) (htokens : Lexes rest tokens) :
    Lexes (t.text ++ rest) (unaryTokens t ++ tokens) := by
  obtain ⟨form, numeral⟩ := t
  have hnumeral := lexes_numeral numeral hrest htokens
  cases form with
  | bare => exact hnumeral
  | negated => exact lexes_operator .sub (fun _ => endsWord_spelling numeral) hnumeral
  | percent =>
    have hmark : EndsNumeral ('%' :: rest) := by
      rintro _ ⟨⟩
      decide
    have hpercent : Lexes ('%' :: rest) (.percent :: tokens) :=
      lexes_symbol (by decide) (by decide) (by decide) (by decide) (by rfl) htokens
    have htext : numeral.text ++ ['%'] ++ rest = numeral.text ++ '%' :: rest := by simp
    exact htext ▸ lexes_numeral numeral hmark hpercent
  | applied name =>
    have htext : name.1.1 ++ numeral.text ++ rest = name.1.1 ++ (numeral.text ++ rest) := by simp
    exact htext ▸ lexes_name name (fun _ => endsWord_spelling numeral) hnumeral

/-- No word begins with an operand, unless the operand is a function that is one. -/
theorem endsWord_term (t : UnaryTerm) (hword : t.form.isWord = false) :
    EndsWord (t.text ++ rest) := by
  obtain ⟨form, numeral⟩ := t
  cases form with
  | bare => exact endsWord_spelling numeral
  | negated =>
    rintro _ ⟨⟩
    decide
  | percent =>
    have htext : numeral.text ++ ['%'] ++ rest = numeral.text ++ '%' :: rest := by simp
    exact htext ▸ endsWord_spelling numeral
  | applied name =>
    obtain ⟨entry, hentry⟩ := name
    obtain rfl | rfl | ⟨hletters, -, -⟩ := spelling_cases entry hentry
    · rintro _ ⟨⟩
      decide
    · rintro _ ⟨⟩
      decide
    · exact absurd (hletters.symm.trans hword) (by decide)

/-- The text of a chain is read as the tokens of its operands and operators. -/
theorem lexes_unaryText (hbinds : BindsAlike first links) :
    Lexes (unaryText first links) (linkTokens unaryTokens first links) := by
  induction links generalizing first with
  | nil => simpa [unaryText_nil, linkTokens] using lexes_term first endsNumeral_nil lexes_nil
  | cons link links ih =>
    obtain ⟨op, next⟩ := link
    obtain ⟨⟨-, -, hword⟩, hlinks⟩ := hbinds
    have hnext := lexes_operator op (fun hop => endsWord_term next (hword hop)) (ih hlinks)
    rw [unaryText_cons]
    exact lexes_term first (endsNumeral_symbol op) hnext

/-! ## Values -/

/-- An operand is one of the grammar, with the function as the only nesting. -/
theorem derives_term (t : UnaryTerm) : Derives 1 .unary (unaryTokens t) (t.value .doubles) := by
  obtain ⟨form, numeral⟩ := t
  have hbase := derivesBase_number 1 numeral.value
  cases form with
  | bare => exact hbase.operand
  | negated => exact hbase.operand.minus
  | percent => exact hbase.percent.operand
  | applied name => exact (derivesBase_number 0 numeral.value).operand.application name.1.2

theorem areOperands_of_bindsAlike (hbinds : BindsAlike first links) :
    AreOperands unaryTokens (UnaryTerm.value .doubles) 1 first links := by
  induction links generalizing first with
  | nil => exact derives_term first
  | cons link links ih =>
    obtain ⟨⟨hbase, -, -⟩, hlinks⟩ := hbinds
    refine ⟨?_, ih hlinks⟩
    split
    · next hpow =>
      rw [unaryTokens, UnaryTerm.value, hbase hpow]
      exact derivesBase_number 1 first.numeral.value
    · exact derives_term first

/-- The scalar evaluator finds the value of a chain that leaves the forms to its
operands. -/
theorem evaluate_unaryText {limit : Nat} (hlimit : 0 < limit) (hbinds : BindsAlike first links) :
    evaluate limit (unaryText first links) =
      if (unaryValue .doubles first links).isNaN then .error .notANumber
        else .ok (unaryValue .doubles first links) :=
  evaluate_of_areOperands (lexes_unaryText hbinds) (areOperands_of_bindsAlike hbinds) hlimit

end Scalar

end MatrixCalculator
