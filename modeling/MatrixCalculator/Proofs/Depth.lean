import MatrixCalculator.Proofs.Base.Input
import MatrixCalculator.Proofs.Limits
import MatrixCalculator.Proofs.Literal.Shape
import MatrixCalculator.Proofs.Scalar.Nesting

/-!
# The depth of what is typed

Parentheses reach the scalar evaluator as they are typed: neither the numerals of a
base nor the characters of a locale are parentheses.  So a scalar expression that is
nested deeper than the limit is refused.  In an expression with matrices groups are
replaced from the inside out, all of them one level below the whole, and there the
limit only counts literals in groups and fields.
-/

namespace MatrixCalculator

open Expression Literal Outcome Text

namespace Separators

variable {separators : Separators} {text : Text}

/-- Whether no separator can be taken for a parenthesis or for a bracket that opens. -/
def KeepsBrackets (separators : Separators) : Prop :=
  separators.decimalPoint ∉ ['(', ')', '['] ∧ separators.grouping ∉ ['(', ')']

instance (separators : Separators) : Decidable separators.KeepsBrackets :=
  inferInstanceAs (Decidable (_ ∧ _))

theorem keepsBrackets_ofLocale (tag : Text) : (ofLocale tag).KeepsBrackets := by
  rw [ofLocale]
  split <;> decide

theorem KeepsBrackets.isParenthesis_eq_false (hseparators : separators.KeepsBrackets) :
    isParenthesis separators.decimalPoint = false ∧ isParenthesis separators.grouping = false := by
  obtain ⟨hpoint, hgrouping⟩ := hseparators
  simp only [List.mem_cons, List.not_mem_nil, or_false, not_or] at hpoint hgrouping
  simp [isParenthesis, hpoint, hgrouping]

/-- Entering keeps parentheses and makes no new ones. -/
theorem KeepsBrackets.parentheses_enter (hseparators : separators.KeepsBrackets) (text : Text) :
    parentheses (Display.enter separators text) = parentheses text := by
  obtain ⟨hpoint, hgrouping⟩ := hseparators.isParenthesis_eq_false
  have hkept : ∀ c, isParenthesis c = true →
      Display.isLayout separators c = false ∧ Display.enterChar separators c = c := by
    intro c hc
    have hne : ∀ d, isParenthesis d = false → c ≠ d := by
      rintro d hd rfl
      rw [hd] at hc
      cases hc
    have hblank : isBlank c = false := by
      by_contra hblank
      rw [Bool.not_eq_false] at hblank
      rw [not_isParenthesis (p := fun c => isBlank c = true) (by decide) (by decide) hblank] at hc
      cases hc
    have hsymbols : c ≠ Symbol.minus ∧ c ≠ '*' ∧ c ≠ '/' :=
      ⟨hne _ (by decide), hne _ (by decide), hne _ (by decide)⟩
    simp [Display.isLayout, Display.enterChar, hblank, hsymbols, hne _ hpoint, hne _ hgrouping]
  have hmade : ∀ c, isParenthesis c = false →
      isParenthesis (Display.enterChar separators c) = false := by
    intro c hc
    rw [Display.enterChar]
    repeat' split
    all_goals first | exact hc | rfl
  have hfilter : text.filter (fun c => (isParenthesis ∘ Display.enterChar separators) c &&
      !Display.isLayout separators c) = text.filter isParenthesis := by
    refine List.filter_congr fun c _ => ?_
    cases hc : isParenthesis c with
    | true => simp [hkept c hc, hc]
    | false => simp [hmade c hc]
  rw [parentheses, Display.enter, List.filter_map, List.filter_filter, hfilter]
  refine (List.map_congr_left fun c hc => ?_).trans (List.map_id _)
  exact (hkept c (List.mem_filter.1 hc).2).2

end Separators

namespace Settings

variable {limit : Nat} {text result : Text}

/-- A text without literals that has a value is nested within the limit. -/
theorem not_nestsDeeper_of_solve (settings : Settings)
    (hseparators : settings.separators.KeepsBrackets) (hbracket : '[' ∉ text)
    (hresult : settings.solve text = .ok result) :
    ¬NestsDeeper settings.maxDepth text := by
  obtain ⟨decimal, hdecimal, hresult⟩ := bind_eq_ok_iff.1 hresult
  have hkept : ∀ p : Char → Bool, (∀ c, Base.isNumeralChar c = true → p c = false) →
      p settings.separators.decimalPoint = false → (∀ c ∈ numberAlphabet, p c = false) →
      decimal.filter p = text.filter p := fun p hnumerals hpoint halphabet =>
    Base.filter_toDecimal hnumerals hpoint halphabet hdecimal
  have hscalar : settings.containsMatrices decimal = false := by
    rw [containsMatrices, ← Bool.not_eq_true, occursIn_iff]
    intro hplain
    have hbrackets := hkept (· == '[') (fun c hc => beq_false_of_ne ?_) (beq_false_of_ne ?_)
      (List.all_iff_forall_prop.1 (by decide))
    · have hmem : '[' ∈ decimal.filter (· == '[') := List.mem_filter.2 ⟨hplain.bracket_mem, rfl⟩
      rw [hbrackets] at hmem
      exact hbracket (List.mem_filter.1 hmem).1
    · rintro rfl
      exact absurd hc (by decide)
    · intro hpoint
      exact hseparators.1 (by simp [hpoint])
  rw [hscalar] at hresult
  obtain ⟨value, hvalue, -⟩ := bind_eq_ok_iff.1 hresult
  obtain ⟨x, hvalue, -⟩ := map_eq_ok_iff.1 hvalue
  have hparentheses : parentheses decimal = parentheses text :=
    hkept isParenthesis
      (fun c => not_isParenthesis (p := fun c => Base.isNumeralChar c = true) (by decide)
        (by decide))
      hseparators.isParenthesis_eq_false.1 (List.all_iff_forall_prop.1 (by decide))
  rw [← nestsDeeper_parentheses, ← hparentheses, ← hseparators.parentheses_enter,
    nestsDeeper_parentheses]
  exact Scalar.not_nestsDeeper_of_evaluate hvalue

/-- With a smaller limit of nesting an expression that has a value either has the same
one or is refused for its depth.  If it holds no literal, it is refused wherever its
parentheses are nested deeper than the limit. -/
theorem solve_limited {settings : Settings} (hseparators : settings.separators.KeepsBrackets)
    (hlimit : limit ≤ settings.maxDepth) (hresult : settings.solve text = .ok result) :
    ({ settings with maxDepth := limit }.solve text = .ok result ∨
      { settings with maxDepth := limit }.solve text = .error (.nestingTooDeep limit)) ∧
    ('[' ∉ text → NestsDeeper limit text →
      { settings with maxDepth := limit }.solve text = .error (.nestingTooDeep limit)) := by
  have hlimited := solve_upTo hlimit text result hresult
  refine ⟨hlimited, fun hbracket hdeeper => hlimited.resolve_left fun hvalue => ?_⟩
  exact not_nestsDeeper_of_solve { settings with maxDepth := limit } hseparators hbracket hvalue
    hdeeper

theorem solve_limited_product :
    let settings : Settings := { separators := .ofLocale "de_DE".toList }
    settings.solve "((1,5))×2".toList = .ok "3".toList ∧
      { settings with maxDepth := 1 }.solve "((1,5))×2".toList = .error (.nestingTooDeep 1) := by
  intro settings
  have hresult : settings.solve "((1,5))×2".toList = .ok "3".toList := by decide +kernel
  have hdeeper : NestsDeeper 1 "((1,5))×2".toList :=
    ⟨"((".toList, "1,5))×2".toList, by decide, by decide⟩
  exact ⟨hresult, (solve_limited (Separators.keepsBrackets_ofLocale _) (by decide) hresult).2
    (by decide) hdeeper⟩

/-- Four parentheses that are open at once pass a limit of one beside a literal. -/
theorem solve_deep_group_beside_literal :
    let settings : Settings := { maxDepth := 1 }
    NestsDeeper 1 "((((1))))+[[1]]".toList ∧
      ({} : Settings).solve "((((1))))+[[1]]".toList = .ok "[[2]]".toList ∧
      settings.solve "((((1))))+[[1]]".toList = .ok "[[2]]".toList := by
  refine ⟨⟨"((((".toList, "1))))+[[1]]".toList, by decide, by decide⟩, ?_⟩
  decide +kernel

end Settings

end MatrixCalculator
