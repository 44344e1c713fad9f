import MatrixCalculator.Proofs.Expression.Factorials
import MatrixCalculator.Proofs.Expression.Fields
import MatrixCalculator.Proofs.Numeral.Rounding

/-!
# Factorials that overflow

A factorial that is no finite double is a fault that names its operand.  In a field the
operand is read digit by digit and named as it is.  A scalar expression has made a double of
it before the mark is met, and names the word which that double is converted to: another
number wherever the double is another one or the conversion stops at the largest word.
-/

namespace MatrixCalculator

open Numeral Outcome Text

/-- Whether an outcome is the overflow of the factorial of a number. -/
def OverflowsAt {α : Type} (n : Nat) (outcome : Except Fault α) : Prop :=
  ∃ operand : DigitText, ofDigits operand.text = n ∧
    outcome = .error (.factorialOverflow operand.text)

namespace Factorial

variable {n : Nat}

def digitText (n : Nat) : DigitText :=
  ⟨digitsOf n, Nat.toDigits_ne_nil, fun _ => isDigit_of_mem_digitsOf⟩

theorem overflowsAt_digitsOf_iff {α : Type} {m : Nat} :
    OverflowsAt n (.error (.factorialOverflow (digitsOf m)) : Except Fault α) ↔ m = n := by
  constructor
  · rintro ⟨operand, hn, hoperand⟩
    rw [← hn, ← (Fault.factorialOverflow.inj (Except.error.inj hoperand)), ofDigits_digitsOf]
  · rintro rfl
    exact ⟨digitText m, ofDigits_digitsOf m, rfl⟩

/-- The factorial of a double names the word that the double is converted to. -/
theorem factorialOf_of_lt (hn : lastFinite < n) :
    Scalar.factorialOf (nearest n) =
      if (nearest n).isFinite then .error (.factorialOverflow (digitsOf (toWord (nearest n))))
      else .error .notANumber := by
  by_cases hfinite : (nearest n).isFinite = true
  · obtain ⟨m, hexact, hm⟩ := exists_isExact_nearest hfinite
    have hword : lastFinite < min m (wordCount - 1) := by
      rw [lastFinite, wordCount] at *
      rw [binade] at hm
      omega
    rw [if_pos hfinite, factorialOf_of_hasValue hexact.hasValue, ofNat_of_lt hword,
      hexact.hasValue.toWord]
  · have hfraction : isWhole (nearest n) = false := by simp [isWhole, hfinite]
    rw [if_neg hfinite, Scalar.factorialOf, if_pos (.inr hfraction)]

end Factorial

/-! ## Digits with a mark -/

namespace Scalar

/-- The digits of a factorial have become a double when the mark is met. -/
theorem evaluate_factorial (digits : DigitText) (limit : Nat) {cause : Fault}
    (hfault : factorialOf (nearest (ofDigits digits.text : Nat)) = .error cause) :
    evaluate limit (digits.text ++ ['!']) = .error cause := by
  have hvalue := Expression.value_of_whole (s := (Spelling.ofDigits digits).typed) rfl rfl
  have htext := (Spelling.ofDigits digits).text_typed.trans (Spelling.text_ofDigits digits)
  have hmark : Lexes ['!'] [.factorial] :=
    lexes_symbol (by decide) (by decide) (by decide) (by decide) rfl lexes_nil
  have hends : EndsNumeral ['!'] := by
    rintro _ ⟨⟩
    decide
  have htokens := lexes_typed (hends.endsTyped (Spelling.ofDigits digits).typed) hmark
  rw [hvalue, htext] at htokens
  obtain ⟨lexemes, hlexemes, htokens⟩ := htokens 0
  obtain ⟨number, others, rfl, hnumber, hothers⟩ := List.map_eq_cons_iff.1 htokens
  obtain ⟨mark, rest, rfl, hfactorial, hrest⟩ := List.map_eq_cons_iff.1 hothers
  obtain rfl := List.map_eq_nil_iff.1 hrest
  have hdigits : (Spelling.ofDigits digits).typed.whole = digits.text := rfl
  rw [hdigits] at hnumber
  rw [evaluate, Scalar.lexemes, hlexemes, ok_bind, valueOf]
  simp only [List.foldlM_cons, readLexeme, Progress.start, readOperand, hnumber, ok_bind,
    Progress.having, readBehind, hfactorial, hfault, error_bind]

end Scalar

namespace Expression

variable {digits : DigitText} {limit : Nat}

/-- A field names the digits of the operand, as they stand if they are no word. -/
theorem overflowsAt_writtenFactorial (hlarge : Factorial.lastFinite < ofDigits digits.text) :
    OverflowsAt (ofDigits digits.text) (writtenFactorial digits.text) := by
  simp only [writtenFactorial]
  split
  · rw [Factorial.write_of_lt hlarge, Factorial.overflowsAt_digitsOf_iff]
  · exact ⟨digits, rfl, rfl⟩

theorem not_mem_factorial {c : Char} (hc : c.isDigit = false) (hmark : c ≠ '!') :
    c ∉ digits.text ++ ['!'] := by
  rw [List.mem_append, List.mem_singleton, not_or]
  exact ⟨fun hmem => by simp [digits.isDigit c hmem] at hc, hmark⟩

/-- A field is a fault where its factorials are. -/
theorem evaluate_factorial_field (digits : DigitText) (hlimit : 1 ≤ limit) {cause : Fault}
    (hfault : writtenFactorial digits.text = .error cause) :
    evaluate limit Separators.canonical
      (Literal.opening ++ (digits.text ++ ['!']) ++ Literal.closing) = .error cause := by
  have hentered : Display.enter Separators.canonical (digits.text ++ ['!']) =
      digits.text ++ ['!'] := by
    refine enter_of_forall (List.forall_mem_append.2 ⟨fun c hc => ?_,
      List.all_iff_forall_prop.1 (by decide)⟩)
    exact of_isDigit (fun c => Display.isLayout Separators.canonical c = false ∧
      Display.enterChar Separators.canonical c = c) (List.all_iff_forall_prop.1 (by decide))
      (digits.isDigit c hc)
  have hresolved : resolve limit limit (digits.text ++ ['!']) = .error cause := by
    obtain ⟨levels, hlevels⟩ := Nat.exists_eq_add_of_le' hlimit
    have hopening : cut? Literal.opening (digits.text ++ ['!']) = none :=
      cut?_eq_none (show '[' ∈ Literal.opening by decide)
        (not_mem_factorial (by decide) (by decide))
    have hpercent : '%' ∉ digits.text ++ ['!'] := not_mem_factorial (by decide) (by decide)
    nth_rewrite 2 [hlevels]
    rw [resolve, passes, canonicalizeLiterals_of_no_opening hopening, ok_bind,
      spellPercents_eq hpercent, spellFactorials_factorial digits.isDigit digits.ne_nil, hfault]
    rfl
  have hfield : ∀ c ∈ [']', ','], c.isDigit = false ∧ c ≠ '!' :=
    List.all_iff_forall_prop.1 (by decide)
  rw [evaluate_single hlimit, hentered, hresolved]
  · rfl
  · intro c hc
    rw [hentered]
    exact not_mem_factorial (hfield c hc).1 (hfield c hc).2
  · rw [hentered]
    exact List.append_ne_nil_of_right_ne_nil _ (List.cons_ne_nil _ _)

/-- An overflowing factorial in a field names its operand.  In a scalar expression it names
the word that its double is converted to, which is the operand only if that is a double of 64
bits or the largest word; an operand that is no finite double is not even found to overflow. -/
theorem overflowsAt_factorial (digits : DigitText) (limit : Nat)
    (hlarge : Factorial.lastFinite < ofDigits digits.text) :
    (1 ≤ limit → OverflowsAt (ofDigits digits.text) (evaluate limit Separators.canonical
      (Literal.opening ++ (digits.text ++ ['!']) ++ Literal.closing))) ∧
    Scalar.evaluate limit (digits.text ++ ['!']) =
      (if (nearest (ofDigits digits.text : Nat)).isFinite then
        .error (.factorialOverflow (digitsOf (toWord (nearest (ofDigits digits.text : Nat)))))
      else .error .notANumber) ∧
    (OverflowsAt (ofDigits digits.text) (Scalar.evaluate limit (digits.text ++ ['!'])) ↔
      ofDigits digits.text < wordCount ∧ Representable (ofDigits digits.text : Nat) ∨
        ofDigits digits.text = wordCount - 1) := by
  have hscalar : Scalar.evaluate limit (digits.text ++ ['!']) =
      (if (nearest (ofDigits digits.text : Nat)).isFinite then
        .error (.factorialOverflow (digitsOf (toWord (nearest (ofDigits digits.text : Nat)))))
      else .error .notANumber) := by
    have hfault := Factorial.factorialOf_of_lt hlarge
    by_cases hfinite : (nearest (ofDigits digits.text : Nat)).isFinite = true
    · rw [if_pos hfinite] at hfault ⊢
      exact Scalar.evaluate_factorial digits limit hfault
    · rw [if_neg hfinite] at hfault ⊢
      exact Scalar.evaluate_factorial digits limit hfault
  refine ⟨fun hlimit => ?_, hscalar, ?_⟩
  · obtain ⟨operand, hoperand, hfault⟩ := overflowsAt_writtenFactorial hlarge
    exact ⟨operand, hoperand, evaluate_factorial_field digits hlimit hfault⟩
  · rw [hscalar, ← toWord_nearest_eq_iff]
    split
    · next hfinite => rw [Factorial.overflowsAt_digitsOf_iff, and_iff_right hfinite]
    · next hinfinite =>
      refine ⟨?_, fun h => absurd h.1 hinfinite⟩
      rintro ⟨operand, -, hoperand⟩
      cases hoperand

theorem overflowsAt_factorial_171 :
    OverflowsAt 171 (evaluate 64 Separators.canonical "[[171!]]".toList) ∧
      Scalar.evaluate 64 "171!".toList = .error (.factorialOverflow "171".toList) ∧
      OverflowsAt 171 (Scalar.evaluate 64 "171!".toList) := by
  obtain ⟨hfield, hscalar, hiff⟩ := overflowsAt_factorial
    ⟨"171".toList, by decide, List.all_iff_forall_prop.1 (by decide)⟩ 64 (by decide)
  have hword : ofDigits "171".toList < wordCount ∧ Representable (ofDigits "171".toList : Nat) :=
    ⟨by decide, representable_natCast (by decide)⟩
  refine ⟨hfield (by decide), hscalar.trans ?_, hiff.2 (.inl hword)⟩
  decide +kernel

/-- Where the double is another number or too large for a word, so is what is named. -/
theorem evaluate_overflowing_scalars :
    Factorial.lastFinite < ofDigits "99999999999999999999".toList ∧
      evaluate 64 Separators.canonical "[[99999999999999999999!]]".toList =
        .error (.factorialOverflow "99999999999999999999".toList) ∧
      Scalar.evaluate 64 "99999999999999999999!".toList =
        .error (.factorialOverflow "18446744073709551615".toList) ∧
      Scalar.evaluate 64 "9007199254740993!".toList =
        .error (.factorialOverflow "9007199254740992".toList) ∧
      ¬OverflowsAt (ofDigits "99999999999999999999".toList)
        (Scalar.evaluate 64 "99999999999999999999!".toList) := by
  have hsaturated : Scalar.evaluate 64 "99999999999999999999!".toList =
      .error (.factorialOverflow "18446744073709551615".toList) := by decide +kernel
  refine ⟨by decide, by decide +kernel, hsaturated, by decide +kernel, ?_⟩
  rw [hsaturated]
  rintro ⟨operand, hoperand, hfault⟩
  rw [← Fault.factorialOverflow.inj (Except.error.inj hfault)] at hoperand
  exact absurd hoperand (by decide)

end Expression

end MatrixCalculator
