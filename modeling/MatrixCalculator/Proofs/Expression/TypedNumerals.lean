import MatrixCalculator.Proofs.Expression.Fields
import MatrixCalculator.Proofs.Expression.Functions
import MatrixCalculator.Proofs.Scalar.Characters

/-!
# Typed numerals in an expression

The passes over an expression look at the characters of a numeral as well: a small mark
of an exponent is the constant unless a digit is beside it, and a plus sign is an operator
wherever it stands.  All other numerals pass as they are typed, so they denote the same
number in an expression, in a field and in a scalar expression.
-/

namespace MatrixCalculator.Expression

open Chain Numeral Outcome Scalar Text

variable {limit offset : Nat} {evaluate : Text → Except Fault Text} {s : TypedNumeral}
  {text left right : Text} {previous : Option Char} {tokens : List Token} {x : Float}

/-! ## The characters of a numeral -/

theorem isDecimalChar_typed (s : TypedNumeral) : ∀ c ∈ s.text, IsDecimalChar c := by
  have hread : readDecimal? s.text = some s.decimal := readDecimal?_eq_some_iff.2 ⟨s, rfl, rfl⟩
  exact isDecimalChar_of_readDecimal? (Option.isSome_of_eq_some hread)

/-- What holds for digits and for the other characters of numerals holds for all of one. -/
theorem forall_mem_typed {p : Char → Prop} (hdigits : ∀ c ∈ "0123456789".toList, p c)
    (hothers : ∀ c ∈ ".eE+-".toList, p c) (s : TypedNumeral) : ∀ c ∈ s.text, p c := by
  intro c hc
  rcases isDecimalChar_typed s c hc with h | h
  · exact of_isDigit p hdigits h
  · exact hothers c h

theorem not_mem_typed {c : Char} (hdigit : c.isDigit = false) (hother : c ∉ ".eE+-".toList) :
    c ∉ s.text := by
  intro hmem
  rcases isDecimalChar_typed s c hmem with h | h
  · rw [hdigit] at h
    cases h
  · exact hother h

theorem enter_typed (s : TypedNumeral) : Display.enter Separators.canonical s.text = s.text :=
  enter_of_forall (forall_mem_typed (List.all_iff_forall_prop.1 (by decide))
    (List.all_iff_forall_prop.1 (by decide)) s)

/-! ## Single numerals -/

theorem enter_cons_of_blank {c : Char} (hc : isBlank c = true) (text : Text) :
    Display.enter Separators.canonical (c :: text) = Display.enter Separators.canonical text := by
  simp [Display.enter, Display.isLayout, hc]

/-- A text that is read as no token is blank. -/
theorem enter_of_scans_nil (hscans : Scans text []) :
    Display.enter Separators.canonical text = [] := by
  generalize htokens : ([] : List Token) = tokens at hscans
  induction hscans with
  | nil => rfl
  | blank hc _ ih => rw [enter_cons_of_blank hc, ih htokens]
  | numeral | word | symbol => cases htokens

/-- A text that is read as one number is a numeral with blanks around it. -/
theorem exists_typed_of_scans (hscans : Scans text [.number x]) :
    ∃ s : TypedNumeral, s.value = x ∧ Display.enter Separators.canonical text = s.text ∧
      s.text <:+: text := by
  generalize htokens : [Token.number x] = tokens at hscans
  induction hscans with
  | nil => cases htokens
  | blank hc _ ih =>
    obtain ⟨s, hvalue, hentered, hwithin⟩ := ih htokens
    exact ⟨s, hvalue, (enter_cons_of_blank hc _).trans hentered,
      hwithin.trans (List.suffix_cons ..).isInfix⟩
  | numeral s hends hrest ih =>
    obtain ⟨hvalue, rfl⟩ := List.cons.inj htokens
    refine ⟨s, (Token.number.inj hvalue).symm, ?_, (List.prefix_append ..).isInfix⟩
    rw [Display.enter_append, enter_typed, enter_of_scans_nil hrest, List.append_nil]
  | word hletters htoken =>
    obtain ⟨rfl, -⟩ := List.cons.inj htokens
    exact absurd htoken (wordToken_ne_number _)
  | symbol hblank hdigit hpoint halpha htoken =>
    obtain ⟨rfl, -⟩ := List.cons.inj htokens
    exact absurd htoken (symbolToken?_ne_number _)

/-! ## The passes -/

/-- Constants are spelled behind characters that are none of them. -/
theorem spellConstants_append (hleft : ∀ c ∈ left, c ≠ 'e' ∧ c ≠ Symbol.pi) :
    spellConstants previous (left ++ right) =
      left ++ spellConstants (ending previous left) right := by
  induction left generalizing previous with
  | nil => rfl
  | cons c left ih =>
    obtain ⟨⟨hmark, hpi⟩, hleft⟩ := List.forall_mem_cons.1 hleft
    rw [List.cons_append, spellConstants, if_neg (fun h => hmark h.1), if_neg hpi, ih hleft]
    rfl

theorem spellConstants_of_forall (htext : ∀ c ∈ text, c ≠ 'e' ∧ c ≠ Symbol.pi) :
    spellConstants previous text = text := by
  have happend : spellConstants previous (text ++ []) = text ++ [] := spellConstants_append htext
  rwa [List.append_nil] at happend

/-- In front of an exponent there is a digit or a point without digits behind it. -/
theorem ending_mantissa (s : TypedNumeral) :
    (∃ c, c.isDigit = true ∧ ending none (s.whole ++ s.fractionText) = some c) ∨
      s.fraction = some [] := by
  have hwhole := s.isDigit_whole
  have hfraction := s.isDigit_fractionDigits
  have hne := s.hasDigit
  rw [TypedNumeral.fractionText, TypedNumeral.fractionDigits] at *
  cases hdigits : s.fraction with
  | none =>
    rw [hdigits, Option.getD_none, List.append_nil] at hne
    obtain ⟨c, hmem, hending⟩ : ∃ c ∈ s.whole, ending none s.whole = some c := exists_ending hne
    exact .inl ⟨c, hwhole c hmem, by simpa using hending⟩
  | some digits =>
    by_cases hempty : digits = []
    · exact .inr (by rw [hempty])
    · rw [hdigits, Option.getD_some] at hfraction
      obtain ⟨c, hmem, hending⟩ : ∃ c ∈ digits, ending (some '.') digits = some c :=
        exists_ending hempty
      refine .inl ⟨c, hfraction c hmem, ?_⟩
      rw [ending_append]
      exact hending

theorem mem_mantissa {p : Char → Prop} (hdigits : ∀ c ∈ "0123456789".toList, p c)
    (hpoint : p '.') (s : TypedNumeral) : ∀ c ∈ s.whole ++ s.fractionText, p c := by
  intro c hc
  rcases s.isDigit_mantissa c hc with h | rfl
  · exact of_isDigit p hdigits h
  · exact hpoint

/-- A mark with a digit beside it is not taken for the constant. -/
theorem spellConstants_exponent {e : TypedExponent} (hsign : e.sign ≠ ['+'])
    (hbeside : isDigit? previous = true ∨ e.mark ≠ 'e' ∨ e.sign = []) :
    spellConstants previous e.text = e.text := by
  obtain ⟨mark, hmark, sign, hsigns, d⟩ := e
  have hdigits : ∀ c ∈ d.text, c ≠ 'e' ∧ c ≠ Symbol.pi := fun c hc =>
    of_isDigit (fun c => c ≠ 'e' ∧ c ≠ Symbol.pi) (List.all_iff_forall_prop.1 (by decide))
      (d.isDigit c hc)
  have hbody : ∀ c ∈ sign ++ d.text, c ≠ 'e' ∧ c ≠ Symbol.pi := by
    refine List.forall_mem_append.2 ⟨?_, hdigits⟩
    rcases hsigns with rfl | rfl | rfl <;> exact List.all_iff_forall_prop.1 (by decide)
  have hpi : mark ≠ Symbol.pi := by rcases hmark with rfl | rfl <;> decide
  have hkept : ¬(mark = 'e' ∧ (!isDigit? previous) = true ∧
      (!isDigit? (sign ++ d.text).head?) = true) := by
    rintro ⟨hsmall, hprevious, hnext⟩
    rcases hbeside with hdigit | hother | hnone
    · simp [hdigit] at hprevious
    · exact hother hsmall
    · obtain rfl : sign = [] := hnone
      obtain ⟨c, others, htext, hc⟩ := d.exists_cons
      simp [htext, isDigit?, hc] at hnext
  rw [TypedExponent.text, spellConstants, if_neg hkept, if_neg hpi, spellConstants_of_forall hbody]

theorem sign_ne_plus {e : TypedExponent} (hexponent : s.exponent = some e) (hplus : '+' ∉ s.text) :
    e.sign ≠ ['+'] := by
  intro hsign
  refine hplus ?_
  simp [TypedNumeral.text, TypedNumeral.exponentText, hexponent, TypedExponent.text, hsign]

/-- Behind a point without digits a small mark needs a digit on its right. -/
theorem spellConstants_typed (hplus : '+' ∉ s.text) (hpoint : ¬".e-".toList <:+: s.text) :
    spellConstants none s.text = s.text := by
  have hmantissa : ∀ c ∈ s.whole ++ s.fractionText, c ≠ 'e' ∧ c ≠ Symbol.pi :=
    mem_mantissa (List.all_iff_forall_prop.1 (by decide)) (by decide) s
  have htext : s.text = (s.whole ++ s.fractionText) ++ s.exponentText :=
    (List.append_assoc ..).symm
  have hexponentText : spellConstants (ending none (s.whole ++ s.fractionText)) s.exponentText =
      s.exponentText := by
    cases hexponent : s.exponent with
    | none =>
      rw [TypedNumeral.exponentText, hexponent]
      rfl
    | some e =>
      rw [TypedNumeral.exponentText, hexponent]
      refine spellConstants_exponent (sign_ne_plus hexponent hplus) ?_
      rcases ending_mantissa s with ⟨c, hc, hending⟩ | hfraction
      · left
        simp [hending, isDigit?, hc]
      · right
        by_contra hbare
        obtain ⟨hmark, hsign⟩ := not_or.1 hbare
        have hminus : e.sign = ['-'] :=
          (e.isSign.resolve_left hsign).resolve_right (sign_ne_plus hexponent hplus)
        refine hpoint ⟨s.whole, e.digits.text, ?_⟩
        simp [TypedNumeral.text, TypedNumeral.fractionText, TypedNumeral.exponentText, hfraction,
          hexponent, TypedExponent.text, not_not.1 hmark, hminus]
  rw [htext, spellConstants_append hmantissa, hexponentText]

/-- Without a plus sign no operator is found in a numeral. -/
theorem fits_solid_typed (hplus : '+' ∉ s.text) : Fits IsSolid s.text := by
  have hplain : ∀ {c : Char}, c ≠ 'm' ∧ c ≠ '-' ∧ Operator.ofChar? c = none →
      ∀ previous, IsSolid previous c := fun h _ => isSolid h.1 h.2.1 h.2.2
  have hdigits : ∀ c ∈ "0123456789".toList, c ≠ 'm' ∧ c ≠ '-' ∧ Operator.ofChar? c = none :=
    List.all_iff_forall_prop.1 (by decide)
  have hmantissa : Fits IsSolid (s.whole ++ s.fractionText) :=
    fits_of_forall fun before c hc =>
      hplain (mem_mantissa (p := fun c => c ≠ 'm' ∧ c ≠ '-' ∧ Operator.ofChar? c = none) hdigits
        (by decide) s c hc) before
  have hexponentText : Fits IsSolid s.exponentText := by
    cases hexponent : s.exponent with
    | none =>
      rw [TypedNumeral.exponentText, hexponent]
      exact fits_nil
    | some e =>
      intro previous
      have hmark : ∀ previous, IsSolid previous e.mark := by
        rcases e.isMark with h | h <;> rw [h] <;> exact hplain (by decide)
      have hsign : Follows IsSolid (some e.mark) e.sign := by
        rcases e.isSign with h | h | h
        · rw [h]
          trivial
        · rw [h]
          refine ⟨isSolid_minus ?_, trivial⟩
          rcases e.isMark with h | h <;> rw [h] <;> decide
        · exact absurd h (sign_ne_plus hexponent hplus)
      rw [TypedNumeral.exponentText, hexponent]
      refine ⟨hmark previous, follows_append.2 ⟨hsign, ?_⟩⟩
      exact fits_of_forall (fun before c hc => hplain
        (of_isDigit (fun c => c ≠ 'm' ∧ c ≠ '-' ∧ Operator.ofChar? c = none) hdigits
          (e.digits.isDigit c hc)) before) _
  rw [TypedNumeral.text, ← List.append_assoc]
  exact hmantissa.append hexponentText

theorem split_typed (hplus : '+' ∉ s.text) : split s.text = ⟨[s.text], []⟩ :=
  splitAfter_eq (fits_solid_typed hplus none)

theorem replaceAll_typed (s : TypedNumeral) :
    Application.replaceAll evaluate s.text = .ok s.text := by
  have hnames : ∀ c ∈ s.text, BeginsNoName c :=
    forall_mem_typed (List.all_iff_forall_prop.1 (by decide))
      (List.all_iff_forall_prop.1 (by decide)) s
  have hskips : Skips s.text [] := skips_of_forall hnames
  rw [Skips, List.append_nil] at hskips
  exact replaceFirst_of_none hskips _

/-- The passes leave a numeral as it is typed. -/
theorem passes_typed (hplus : '+' ∉ s.text) (hpoint : ¬".e-".toList <:+: s.text) :
    passes limit evaluate s.text = .ok s.text := by
  have hmarks : ∀ c ∈ ['!', '(', ')', 'T', '﻿'], c.isDigit = false ∧ c ∉ ".eE+-".toList :=
    List.all_iff_forall_prop.1 (by decide)
  have hpercents : spellPercents none s.text = s.text :=
    spellPercents_eq (not_mem_typed (by decide) (by decide))
  rw [passes_of_unmarked (keepsLiterals_of_not_mem (not_mem_typed (by decide) (by decide)))
    hpercents (fun c hc => not_mem_typed (hmarks c hc).1 (hmarks c hc).2) (replaceAll_typed s)
    (spellConstants_typed hplus hpoint), reduceText_of_atom (split_typed hplus) rfl]

/-! ## Values -/

/-- A numeral denotes the same number as an expression and as a field as it does in scalar
expressions, unless it has a plus sign, or the small mark between a point and a hyphen. -/
theorem evaluate_one_number {word : Text}
    (hlexemes : lexemes text = .ok [⟨.number x, offset, word⟩])
    (hplus : '+' ∉ text) (hpoint : ¬".e-".toList <:+: text) (limit : Nat) :
    Expression.evaluate limit Separators.canonical text = .ok (write x) ∧
      (1 ≤ limit →
        Expression.evaluate limit Separators.canonical (Literal.opening ++ text ++ Literal.closing) =
          .ok (Literal.opening ++ write x ++ Literal.closing)) := by
  obtain ⟨s, rfl, hentered, hwithin⟩ := exists_typed_of_scans (scans_of_lexemesFrom hlexemes)
  have hplus' : '+' ∉ s.text := fun hmem => hplus (hwithin.subset hmem)
  have hpoint' : ¬".e-".toList <:+: s.text := fun h => hpoint (h.trans hwithin)
  have hresolved : ∀ levels, resolve limit (levels + 1) s.text = .ok s.text := fun levels => by
    rw [resolve, passes_typed hplus' hpoint']
  constructor
  · have hcanonical : canonicalizeLiterals Separators.canonical (resolve limit limit) s.text =
        .ok s.text :=
      (keepsLiterals_of_not_mem (not_mem_typed (by decide) (by decide))).canonicalizeLiterals_eq
    have hcontains : contains notANumberWord (write s.value) = false :=
      (Operand.contains_write_iff (.scalar s.value)).2 (not_isNaN_typed s)
    rw [Expression.evaluate, hentered, hcanonical, ok_bind, hresolved, ok_bind,
      operand_of_no_literal (not_mem_typed (by decide) (by decide)), evaluate_typed, map_ok,
      ok_bind, Operand.write, hcontains]
    rfl
  · intro hlimit
    have hfield : ∀ c ∈ [']', ','], c ∉ Display.enter Separators.canonical text := by
      rw [hentered]
      have hmarks : ∀ c ∈ [']', ','], c.isDigit = false ∧ c ∉ ".eE+-".toList :=
        List.all_iff_forall_prop.1 (by decide)
      exact fun c hc => not_mem_typed (hmarks c hc).1 (hmarks c hc).2
    obtain ⟨levels, rfl⟩ := Nat.exists_eq_add_of_le' hlimit
    rw [evaluate_single hlimit hfield (hentered ▸ s.text_ne_nil), hentered, hresolved, ok_bind,
      s.read?_text]
    simp only [not_isNaN_typed, Bool.false_eq_true, if_false]

theorem evaluate_leading_point :
    Expression.evaluate 1 Separators.canonical " .5E-3".toList = .ok "5e-4".toList ∧
      Expression.evaluate 1 Separators.canonical "[[ .5E-3]]".toList = .ok "[[5e-4]]".toList := by
  have hlexemes : lexemes " .5E-3".toList = .ok [⟨.number 5e-4, 1, ".5E-3".toList⟩] := by
    with_unfolding_all rfl
  have hwrite : write 5e-4 = "5e-4".toList := by decide +kernel
  have hplus : '+' ∉ " .5E-3".toList := by decide
  have hpoint : ¬".e-".toList <:+: " .5E-3".toList := by decide
  obtain ⟨hvalue, hliteral⟩ := evaluate_one_number hlexemes hplus hpoint 1
  rw [hwrite] at hvalue hliteral
  exact ⟨hvalue, hliteral (Nat.le_refl 1)⟩

/-- A plus sign divides a numeral, and a small mark between a point and a hyphen is
replaced by the constant. -/
theorem evaluate_plus_in_exponent :
    lexemes "1e+5".toList = .ok [⟨.number 100000, 0, "1e+5".toList⟩] ∧
      write 100000 = "100000".toList ∧
      Expression.evaluate 64 Separators.canonical "1e+5".toList =
        .ok "7.718281828459045".toList ∧
      Expression.evaluate 64 Separators.canonical "[[1e+5]]".toList =
        .ok "[[7.718281828459045]]".toList ∧
      lexemes "2.e-5".toList = .ok [⟨.number 2e-5, 0, "2.e-5".toList⟩] ∧
      Expression.evaluate 64 Separators.canonical "2.e-5".toList =
        .error (.unexpectedToken ".".toList 3) := by
  refine ⟨by with_unfolding_all rfl, by decide +kernel, by decide +kernel, by decide +kernel,
    by with_unfolding_all rfl, by decide +kernel⟩

end MatrixCalculator.Expression
