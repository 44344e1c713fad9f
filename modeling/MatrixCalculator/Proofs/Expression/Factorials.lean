import MatrixCalculator.Proofs.Expression.Marks
import MatrixCalculator.Proofs.Factorial
import MatrixCalculator.Proofs.Scalar.Reading
import MatrixCalculator.Proofs.Scalar.Scanning

/-!
# Spelled factorials

A factorial of a run of digits is replaced by a numeral before the text is evaluated.  The
numeral denotes the factorial, and everything else of the text is read as before, so the
value stays.  This is only wrong where the pass takes another numeral than the scan does:
the digits of an exponent, or a numeral that goes on behind its factorial.
-/

namespace MatrixCalculator

open Numeral Outcome Text

namespace Expression

open Scalar

variable {left right rest text digits product spelled : Text} {afterPoint : Bool} {c : Char}
  {s : TypedNumeral} {limit : Nat} {x : Float} {tokens closing : List Token} {progress : Progress}
  {pending : List Pending}

/-! ## The numeral of a factorial -/

theorem value_of_whole (hfraction : s.fraction = none) (hexponent : s.exponent = none) :
    s.value = nearest (ofDigits s.whole : Nat) := by
  rw [TypedNumeral.value, Decimal.toDouble_eq_nearest]
  simp [TypedNumeral.decimal, TypedNumeral.fractionDigits, hfraction, hexponent, Decimal.toRat]

theorem write_of_writtenFactorial (hproduct : writtenFactorial digits = .ok product) :
    Factorial.write (ofDigits digits) = .ok product := by
  simp only [writtenFactorial] at hproduct
  split at hproduct
  · exact hproduct
  · cases hproduct

/-- What is written for digits and a mark is a numeral of the factorial of the digits. -/
theorem exists_factorial_numeral (hfraction : s.fraction = none) (hexponent : s.exponent = none)
    (hproduct : writtenFactorial s.whole = .ok product) :
    ∃ d : Spelling, d.text = product ∧ factorialOf s.value = .ok d.value := by
  have hwrite := write_of_writtenFactorial hproduct
  obtain ⟨d, htext, hvalue⟩ := Factorial.exists_spelling hwrite
  refine ⟨d, htext, ?_⟩
  rw [value_of_whole hfraction hexponent,
    Factorial.factorialOf_nearest (Factorial.le_lastFinite_of_write hwrite), hvalue]

/-! ## What the pass takes and what it keeps -/

/-- A point in front of a text only matters for its digits. -/
theorem spellFactorials_of_endsDigits (htext : EndsDigits text) :
    spellFactorials afterPoint text = spellFactorials false text := by
  cases text with
  | nil => rw [spellFactorials, spellFactorials]
  | cons c text => rw [spellFactorials_cons (htext c rfl), spellFactorials_cons (htext c rfl)]

/-- Digits are kept behind a point, and where no mark is behind them. -/
theorem spellFactorials_run (hdigits : ∀ c ∈ digits, c.isDigit = true) (hrest : EndsDigits rest)
    (hkept : rest.head? = some '!' → afterPoint = true ∨ digits = []) :
    spellFactorials afterPoint (digits ++ rest) = (digits ++ ·) <$> spellFactorials false rest := by
  cases digits with
  | nil => simpa using spellFactorials_of_endsDigits hrest
  | cons c digits =>
    obtain ⟨hc, hothers⟩ := List.forall_mem_cons.1 hdigits
    have hmissing : ¬(rest.head? = some '!' ∧ (!afterPoint) = true) := by
      rintro ⟨hmark, hpoint⟩
      rcases hkept hmark with rfl | hempty
      · cases hpoint
      · cases hempty
    rw [List.cons_append, spellFactorials, if_pos hc, takeWhile_run hothers hrest,
      dropWhile_run hothers hrest, if_neg hmissing, map_eq_pure_bind]

/-- Digits in front of a mark are taken together with it. -/
theorem spellFactorials_factorial (hdigits : ∀ c ∈ digits, c.isDigit = true) (hne : digits ≠ []) :
    spellFactorials false (digits ++ '!' :: rest) = (do
      let product ← writtenFactorial digits
      return product ++ (← spellFactorials false rest)) := by
  have hrest : EndsDigits ('!' :: rest) := endsDigits_cons (by decide)
  cases digits with
  | nil => exact absurd rfl hne
  | cons c digits =>
    obtain ⟨hc, hothers⟩ := List.forall_mem_cons.1 hdigits
    rw [List.cons_append, spellFactorials, if_pos hc, takeWhile_run hothers hrest,
      dropWhile_run hothers hrest, if_pos ⟨rfl, rfl⟩, List.tail_cons]

/-- Characters that are neither digits nor points are kept. -/
theorem spellFactorials_plain (hleft : ∀ c ∈ left, c.isDigit = false ∧ c ≠ '.') :
    spellFactorials false (left ++ right) = (left ++ ·) <$> spellFactorials false right := by
  induction left with
  | nil => simp
  | cons c left ih =>
    obtain ⟨⟨hdigit, hpoint⟩, hleft⟩ := List.forall_mem_cons.1 hleft
    rw [List.cons_append, spellFactorials_cons hdigit, beq_false_of_ne hpoint, ih hleft,
      Functor.map_map]
    rfl

theorem spellFactorials_exponentText (hrest : EndsDigits rest)
    (hkept : rest.head? = some '!' → s.exponent = none) :
    spellFactorials false (s.exponentText ++ rest) =
      (s.exponentText ++ ·) <$> spellFactorials false rest := by
  rw [TypedNumeral.exponentText]
  cases hexponent : s.exponent with
  | none => simp
  | some e =>
    have hdigits : spellFactorials false (e.digits.text ++ rest) =
        (e.digits.text ++ ·) <$> spellFactorials false rest :=
      spellFactorials_run e.digits.isDigit hrest fun h => by
        rw [hexponent] at hkept
        cases hkept h
    have htext : e.text = (e.mark :: e.sign) ++ e.digits.text := rfl
    rw [Option.elim_some, htext, List.append_assoc,
      spellFactorials_plain (plain_mark e.isMark e.isSign), hdigits, Functor.map_map]
    simp only [List.append_assoc]

theorem spellFactorials_fractionText (hrest : EndsDigits rest) :
    spellFactorials false (s.fractionText ++ rest) =
      (s.fractionText ++ ·) <$> spellFactorials false rest := by
  have hdigits := s.isDigit_fractionDigits
  rw [TypedNumeral.fractionDigits] at hdigits
  rw [TypedNumeral.fractionText]
  cases hfraction : s.fraction with
  | none => simp
  | some digits =>
    rw [hfraction, Option.getD_some] at hdigits
    have hpoint : ('.' == '.') = true := rfl
    rw [Option.elim_some, List.cons_append, spellFactorials_cons (by decide), hpoint,
      spellFactorials_run hdigits hrest fun _ => .inl rfl, Functor.map_map]
    rfl

/-- A numeral is kept unless it is a run of digits in front of a mark, or has an exponent
there. -/
theorem spellFactorials_typed (hrest : EndsDigits rest)
    (hkept : rest.head? = some '!' → s.fraction ≠ none ∧ s.exponent = none) :
    spellFactorials false (s.text ++ rest) = (s.text ++ ·) <$> spellFactorials false rest := by
  -- the whole digits stand in front of the mark only where the numeral is nothing else
  have hwhole : (s.fractionText ++ (s.exponentText ++ rest)).head? = some '!' →
      false = true ∨ s.whole = [] := by
    intro hhead
    rw [TypedNumeral.fractionText, TypedNumeral.exponentText] at hhead
    cases hfraction : s.fraction with
    | some digits =>
      rw [hfraction] at hhead
      cases hhead
    | none =>
      cases hexponent : s.exponent with
      | some e =>
        rw [hfraction, hexponent] at hhead
        have hmark : e.mark = '!' := Option.some.inj hhead
        rcases e.isMark with h | h <;> rw [h] at hmark <;> cases hmark
      | none =>
        rw [hfraction, hexponent] at hhead
        exact absurd hfraction (hkept hhead).1
  rw [TypedNumeral.text, List.append_assoc, List.append_assoc,
    spellFactorials_run s.isDigit_whole (s.endsDigits_fractionText hrest) hwhole,
    spellFactorials_fractionText (s.endsDigits_exponentText hrest),
    spellFactorials_exponentText hrest fun h => (hkept h).2, Functor.map_map, Functor.map_map]
  simp only [List.append_assoc]

/-! ## Where a spelled text begins -/

/-- A spelled text begins with a digit where the text does, and else with the same
character. -/
theorem head_of_spellFactorials (hspelled : spellFactorials afterPoint text = .ok (c :: spelled)) :
    (c.isDigit = true ∧ ∃ d others, text = d :: others ∧ d.isDigit = true) ∨
      c.isDigit = false ∧ ∃ others, text = c :: others ∧
        spellFactorials (c == '.') others = .ok spelled := by
  cases text with
  | nil =>
    rw [spellFactorials] at hspelled
    cases hspelled
  | cons d others =>
    by_cases hd : d.isDigit = true
    · refine .inl ⟨?_, d, others, rfl, hd⟩
      rw [spellFactorials, if_pos hd] at hspelled
      split at hspelled
      · obtain ⟨product, hproduct, hspelled⟩ := bind_eq_ok_iff.1 hspelled
        obtain ⟨behind, -, hspelled⟩ := bind_eq_ok_iff.1 hspelled
        obtain ⟨numeral, rfl, -⟩ :=
          Factorial.exists_spelling (write_of_writtenFactorial hproduct)
        obtain ⟨first, tail, htext, hfirst⟩ := numeral.exists_cons
        rw [htext] at hspelled
        obtain ⟨rfl, -⟩ := List.cons.inj (Except.ok.inj hspelled)
        exact hfirst
      · obtain ⟨behind, -, hspelled⟩ := bind_eq_ok_iff.1 hspelled
        obtain ⟨rfl, -⟩ := List.cons.inj (Except.ok.inj hspelled)
        exact hd
    · rw [spellFactorials_cons (Bool.eq_false_of_not_eq_true hd), map_eq_ok_iff] at hspelled
      obtain ⟨behind, hbehind, heq⟩ := hspelled
      obtain ⟨rfl, rfl⟩ := List.cons.inj heq
      exact .inr ⟨Bool.eq_false_of_not_eq_true hd, others, rfl, hbehind⟩

theorem endsDigits_spelled (htext : EndsDigits text)
    (hspelled : spellFactorials afterPoint text = .ok spelled) : EndsDigits spelled := by
  intro c hc
  obtain ⟨behind, rfl⟩ := List.head?_eq_some_iff.1 hc
  rcases head_of_spellFactorials hspelled with ⟨-, d, others, rfl, hd⟩ | ⟨hdigit, -⟩
  · rw [htext d rfl] at hd
    cases hd
  · exact hdigit

theorem head?_of_spelled (hspelled : spellFactorials afterPoint text = .ok spelled)
    (hc : c.isDigit = false) (hhead : spelled.head? = some c) : text.head? = some c := by
  obtain ⟨behind, rfl⟩ := List.head?_eq_some_iff.1 hhead
  rcases head_of_spellFactorials hspelled with ⟨hdigit, -⟩ | ⟨-, others, rfl, -⟩
  · rw [hc] at hdigit
    cases hdigit
  · rfl

theorem endsWord_spelled (htext : EndsWord text)
    (hspelled : spellFactorials afterPoint text = .ok spelled) : EndsWord spelled := by
  intro c hc
  by_contra hletter
  rw [Bool.not_eq_false] at hletter
  have hhead := head?_of_spelled hspelled (isDigit_of_isAlpha hletter) hc
  rw [htext c hhead] at hletter
  cases hletter

/-- What a spelled text begins with, up to its first digit or point, the text begins with. -/
theorem exists_append_of_spelled (hleft : ∀ c ∈ left, c.isDigit = false ∧ c ≠ '.')
    (hspelled : spellFactorials false text = .ok (left ++ spelled)) :
    ∃ others, text = left ++ others ∧ spellFactorials false others = .ok spelled := by
  induction left generalizing text with
  | nil => exact ⟨text, rfl, hspelled⟩
  | cons c left ih =>
    obtain ⟨⟨hdigit, hpoint⟩, hleft⟩ := List.forall_mem_cons.1 hleft
    rcases head_of_spellFactorials hspelled with ⟨hc, -⟩ | ⟨-, behind, rfl, hbehind⟩
    · rw [hdigit] at hc
      cases hc
    · rw [beq_false_of_ne hpoint] at hbehind
      obtain ⟨others, rfl, hothers⟩ := ih hleft hbehind
      exact ⟨others, rfl, hothers⟩

/-- What is an exponent once factorials are spelled was one before. -/
theorem exponentLength_of_spelled (hspelled : spellFactorials false text = .ok spelled)
    (hlength : exponentLength spelled ≠ 0) : exponentLength text ≠ 0 := by
  obtain ⟨mark, sign, c, rest, hmark, hsign, hc, rfl⟩ := exponentLength_ne_zero_iff.1 hlength
  obtain ⟨others, rfl, hothers⟩ := exists_append_of_spelled (plain_mark hmark hsign) hspelled
  rcases head_of_spellFactorials hothers with ⟨-, d, behind, rfl, hd⟩ | ⟨hdigit, -⟩
  · exact exponentLength_ne_zero_iff.2 ⟨mark, sign, d, behind, hmark, hsign, hd, rfl⟩
  · rw [hc] at hdigit
    cases hdigit

theorem endsTyped_spelled (hends : EndsTyped s rest)
    (hspelled : spellFactorials false rest = .ok spelled) : EndsTyped s spelled := by
  refine ⟨endsDigits_spelled hends.1 hspelled, fun hexponent => ?_⟩
  obtain ⟨hlength, hpoint⟩ := hends.2 hexponent
  refine ⟨?_, fun hfraction hhead => hpoint hfraction ?_⟩
  · by_contra hne
    exact exponentLength_of_spelled hspelled hne hlength
  · exact head?_of_spelled hspelled (by decide) hhead

/-! ## Texts that the pass changes -/

/-- Whether a mark stands behind the exponent of a numeral. -/
def FactorialOfExponent (text : Text) : Prop :=
  ∃ (c : Char) (e : TypedExponent), (c.isDigit = true ∨ c = '.') ∧
    c :: (e.text ++ ['!']) <:+: text

/-- Whether digits and their mark stand in front of an exponent. -/
def ExponentOfFactorial (text : Text) : Prop :=
  ∃ (c : Char) (e : TypedExponent), c.isDigit = true ∧ c :: '!' :: e.text <:+: text

theorem FactorialOfExponent.mono (hrest : FactorialOfExponent rest) (hwithin : rest <:+: text) :
    FactorialOfExponent text := by
  obtain ⟨c, e, hc, hmarked⟩ := hrest
  exact ⟨c, e, hc, hmarked.trans hwithin⟩

theorem ExponentOfFactorial.mono (hrest : ExponentOfFactorial rest) (hwithin : rest <:+: text) :
    ExponentOfFactorial text := by
  obtain ⟨c, e, hc, hmarked⟩ := hrest
  exact ⟨c, e, hc, hmarked.trans hwithin⟩

theorem factorialOfExponent_typed (hexponent : s.exponent ≠ none) :
    FactorialOfExponent (s.text ++ '!' :: rest) := by
  obtain ⟨e, he⟩ := Option.ne_none_iff_exists'.1 hexponent
  obtain ⟨mantissa, c, hmantissa⟩ := List.eq_nil_or_concat _ |>.resolve_left s.mantissa_ne_nil
  have hc := s.isDigit_mantissa c (by rw [hmantissa]; simp)
  refine ⟨c, e, hc, mantissa, rest, ?_⟩
  rw [TypedNumeral.text, ← List.append_assoc, hmantissa, TypedNumeral.exponentText, he]
  simp

theorem exponentOfFactorial_digits (hdigits : ∀ c ∈ digits, c.isDigit = true) (hne : digits ≠ [])
    (hlength : exponentLength rest ≠ 0) : ExponentOfFactorial (digits ++ '!' :: rest) := by
  obtain ⟨e, behind, rfl, -⟩ := exists_typedExponent hlength
  obtain ⟨others, c, rfl⟩ := List.eq_nil_or_concat _ |>.resolve_left hne
  exact ⟨c, e, hdigits c (by simp), others, behind, by simp⟩

theorem text_of_whole (hfraction : s.fraction = none) (hexponent : s.exponent = none) :
    s.text = s.whole := by
  simp [TypedNumeral.text, TypedNumeral.fractionText, TypedNumeral.exponentText, hfraction,
    hexponent]

/-- Behind a factorial nothing goes on with the numeral that is written for it. -/
theorem endsTyped_factorial {d : Spelling} {others : List Token} (hrest : Scans rest others)
    (hspelled : spellFactorials false rest = .ok spelled) (hlength : exponentLength rest = 0)
    (hvalue : valueFrom? limit (.having x pending) (others ++ closing) ≠ none) :
    EndsTyped d.typed spelled := by
  have hnumber : ∀ c, rest.head? = some c → ¬(c.isDigit = true ∨ c = '.') := by
    intro c hhead hc
    obtain ⟨behind, rfl⟩ := List.head?_eq_some_iff.1 hhead
    obtain ⟨y, tokens, rfl⟩ := scans_numeral hc hrest
    obtain ⟨z, hz⟩ := Option.ne_none_iff_exists'.1 hvalue
    cases (valueFrom?_number_eq_some_iff.1 hz).1
  have hends : EndsDigits rest := fun c hc => by
    simpa using fun h => hnumber c hc (.inl h)
  exact endsTyped_spelled ⟨hends, fun _ => ⟨hlength, fun _ h => hnumber _ h (.inr rfl)⟩⟩ hspelled

/-- Digits and their mark are read as the numeral that is written for them, in front of
what is read alike. -/
theorem exists_scans_product {marked : List Token} (hfraction : s.fraction = none)
    (hexponent : s.exponent = none) (hproduct : writtenFactorial s.whole = .ok product)
    (hspelled : spellFactorials false rest = .ok spelled) (hlength : exponentLength rest = 0)
    (hscans : Scans ('!' :: rest) tokens)
    (hvalue : valueFrom? limit (.having s.value pending) (tokens ++ closing) = some x)
    (hmarked : Scans ('!' :: spelled) marked)
    (hmarkedValue : valueFrom? limit (.having s.value pending) (marked ++ closing) = some x) :
    ∃ y others, Scans (product ++ spelled) (.number y :: others) ∧
      valueFrom? limit (.having y pending) (others ++ closing) = some x := by
  obtain ⟨d, rfl, hfactorial⟩ := exists_factorial_numeral hfraction hexponent hproduct
  obtain ⟨behind, rfl, hbehind⟩ := scans_factorial hscans
  obtain ⟨others, rfl, hothers⟩ := scans_factorial hmarked
  rw [List.cons_append, valueFrom?_factorial_eq_some_iff] at hvalue hmarkedValue
  obtain ⟨y, -, hvalue⟩ := hvalue
  obtain ⟨z, hz, hmarkedValue⟩ := hmarkedValue
  obtain rfl : d.value = z := Except.ok.inj (hfactorial.symm.trans hz)
  have hends : EndsTyped d.typed spelled :=
    endsTyped_factorial hbehind hspelled hlength (Option.ne_none_iff_exists'.2 ⟨x, hvalue⟩)
  have hnumeral := Scans.numeral d.typed hends hothers
  rw [d.text_typed, d.value_typed] at hnumeral
  exact ⟨d.value, others, hnumeral, hmarkedValue⟩

/-! ## Reading a spelled text -/

/-- Whether a text that is scanned as some tokens is read as the same value once its
factorials are spelled. -/
def ReadsSpelled (limit : Nat) (closing : List Token) (text : Text) (tokens : List Token) : Prop :=
  ∀ ⦃spelled progress x⦄, spellFactorials false text = .ok spelled → ¬FactorialOfExponent text →
    ¬ExponentOfFactorial text → valueFrom? limit progress (tokens ++ closing) = some x →
    ∃ others, Scans spelled others ∧ valueFrom? limit progress (others ++ closing) = some x

namespace ReadsSpelled

variable {token : Token} {behind : Text}

theorem of_isInfix (hrest : ReadsSpelled limit closing rest tokens) (hwithin : rest <:+: text)
    (hexponent : ¬FactorialOfExponent text) (hbehind : ¬ExponentOfFactorial text)
    (hspelled : spellFactorials false rest = .ok spelled)
    (hvalue : valueFrom? limit progress (tokens ++ closing) = some x) :
    ∃ others, Scans spelled others ∧ valueFrom? limit progress (others ++ closing) = some x :=
  hrest hspelled (fun h => hexponent (h.mono hwithin)) (fun h => hbehind (h.mono hwithin)) hvalue

theorem blank (hc : isBlank c = true) (hrest : ReadsSpelled limit closing rest tokens) :
    ReadsSpelled limit closing (c :: rest) tokens := by
  intro spelled progress x hspelled hexponent hbehind hvalue
  have hdigit : c.isDigit = false := by
    by_contra hdigit
    rw [isBlank_of_isDigit (Bool.eq_true_of_not_eq_false hdigit)] at hc
    cases hc
  have hpoint : c ≠ '.' := by
    rintro rfl
    cases hc
  rw [spellFactorials_cons hdigit, beq_false_of_ne hpoint, map_eq_ok_iff] at hspelled
  obtain ⟨spelled, hspelled, rfl⟩ := hspelled
  obtain ⟨others, hothers, hvalue⟩ :=
    hrest.of_isInfix (List.suffix_cons c rest).isInfix hexponent hbehind hspelled hvalue
  exact ⟨others, .blank hc hothers, hvalue⟩

/-- A token without digits and points is read in front of the spelled rest. -/
theorem plain (hleft : ∀ c ∈ left, c.isDigit = false ∧ c ≠ '.')
    (hrest : ReadsSpelled limit closing rest tokens)
    (hscans : ∀ spelled others, spellFactorials false rest = .ok spelled →
      Scans spelled others → Scans (left ++ spelled) (token :: others)) :
    ReadsSpelled limit closing (left ++ rest) (token :: tokens) := by
  intro spelled progress x hspelled hexponent hbehind hvalue
  rw [spellFactorials_plain hleft, map_eq_ok_iff] at hspelled
  obtain ⟨spelled, hspelled, rfl⟩ := hspelled
  obtain ⟨next, hnext, hvalue⟩ := valueFrom?_cons_eq_some_iff.1 hvalue
  obtain ⟨others, hothers, hvalue⟩ :=
    hrest.of_isInfix (List.suffix_append _ _).isInfix hexponent hbehind hspelled hvalue
  exact ⟨token :: others, hscans spelled others hspelled hothers,
    valueFrom?_cons_eq_some_iff.2 ⟨next, hnext, hvalue⟩⟩

theorem keptNumeral (hends : EndsTyped s rest)
    (hkept : rest.head? = some '!' → s.fraction ≠ none ∧ s.exponent = none)
    (hrest : ReadsSpelled limit closing rest tokens) :
    ReadsSpelled limit closing (s.text ++ rest) (.number s.value :: tokens) := by
  intro spelled progress x hspelled hexponent hbehind hvalue
  rw [List.cons_append, valueFrom?_number_eq_some_iff] at hvalue
  obtain ⟨hawaiting, hvalue⟩ := hvalue
  rw [spellFactorials_typed hends.1 hkept, map_eq_ok_iff] at hspelled
  obtain ⟨spelled, hspelled, rfl⟩ := hspelled
  obtain ⟨others, hothers, hvalue⟩ :=
    hrest.of_isInfix (List.suffix_append _ _).isInfix hexponent hbehind hspelled hvalue
  exact ⟨_, .numeral s (endsTyped_spelled hends hspelled) hothers,
    valueFrom?_number_eq_some_iff.2 ⟨hawaiting, hvalue⟩⟩

theorem factorial (hwhole : s.fraction = none) (hnone : s.exponent = none)
    (hscans : Scans ('!' :: behind) tokens)
    (hrest : ReadsSpelled limit closing ('!' :: behind) tokens) :
    ReadsSpelled limit closing (s.text ++ '!' :: behind) (.number s.value :: tokens) := by
  intro spelled progress x hspelled hexponent hbehind hvalue
  have hwithin : '!' :: behind <:+: s.text ++ '!' :: behind := (List.suffix_append _ _).isInfix
  rw [List.cons_append, valueFrom?_number_eq_some_iff] at hvalue
  obtain ⟨hawaiting, hvalue⟩ := hvalue
  have hne : s.whole ≠ [] := by
    rw [← text_of_whole hwhole hnone]
    exact s.text_ne_nil
  have hlength : exponentLength behind = 0 := by
    by_contra hlonger
    rw [text_of_whole hwhole hnone] at hbehind
    exact hbehind (exponentOfFactorial_digits s.isDigit_whole hne hlonger)
  rw [text_of_whole hwhole hnone, spellFactorials_factorial s.isDigit_whole hne,
    bind_eq_ok_iff] at hspelled
  obtain ⟨product, hproduct, hspelled⟩ := hspelled
  obtain ⟨spelled, hbehindSpelled, hspelled⟩ := bind_eq_ok_iff.1 hspelled
  cases hspelled
  -- what is known of the rest is about the text from the mark on, which is kept there
  have hmarkSpelled : spellFactorials false ('!' :: behind) = .ok ('!' :: spelled) := by
    rw [spellFactorials_cons (by decide)]
    exact map_eq_ok_iff.2 ⟨spelled, hbehindSpelled, rfl⟩
  obtain ⟨marked, hmarked, hmarkedValue⟩ :=
    hrest.of_isInfix hwithin hexponent hbehind hmarkSpelled hvalue
  obtain ⟨y, others, hothers, hvalue⟩ := exists_scans_product hwhole hnone hproduct
    hbehindSpelled hlength hscans hvalue hmarked hmarkedValue
  exact ⟨_, hothers, valueFrom?_number_eq_some_iff.2 ⟨hawaiting, hvalue⟩⟩

theorem numeral (hends : EndsTyped s rest) (hscans : Scans rest tokens)
    (hrest : ReadsSpelled limit closing rest tokens) :
    ReadsSpelled limit closing (s.text ++ rest) (.number s.value :: tokens) := by
  by_cases hkept : rest.head? = some '!' → s.fraction ≠ none ∧ s.exponent = none
  · exact hrest.keptNumeral hends hkept
  obtain ⟨hmark, hkept⟩ := Classical.not_imp.1 hkept
  obtain ⟨behind, rfl⟩ := List.head?_eq_some_iff.1 hmark
  by_cases hnone : s.exponent = none
  · have hwhole : s.fraction = none := by
      by_contra hsome
      exact hkept fun _ => ⟨hsome, hnone⟩
    exact hrest.factorial hwhole hnone hscans
  · intro spelled progress x hspelled hexponent
    exact absurd (factorialOfExponent_typed hnone) hexponent

end ReadsSpelled

theorem readsSpelled_of_scans (hscans : Scans text tokens) :
    ReadsSpelled limit closing text tokens := by
  induction hscans with
  | nil =>
    intro spelled progress x hspelled _ _ hvalue
    rw [spellFactorials] at hspelled
    cases hspelled
    exact ⟨[], .nil, hvalue⟩
  | blank hc _ ih => exact ih.blank hc
  | numeral s hends hrest ih => exact ih.numeral hends hrest
  | word hletters htoken hends _ ih =>
    refine ih.plain (fun d hd => ?_) fun spelled others hspelled hothers => ?_
    · exact ⟨isDigit_of_isAlpha (hletters d hd), ne_point_of_isAlpha (hletters d hd)⟩
    · exact .word hletters htoken (endsWord_spelled hends hspelled) hothers
  | @symbol c rest token tokens hblank hdigit hpoint halpha htoken hrest ih =>
    have hleft : ∀ d ∈ [c], d.isDigit = false ∧ d ≠ '.' := by
      simpa using ⟨hdigit, hpoint⟩
    exact ih.plain hleft fun spelled others _ hothers =>
      .symbol hblank hdigit hpoint halpha htoken hothers

/-- Digits behind a point are kept together with their mark. -/
theorem spellFactorials_fraction (hdigits : ∀ c ∈ digits, c.isDigit = true)
    (hspelled : spellFactorials false (left ++ '.' :: (digits ++ '!' :: right)) = .ok spelled) :
    ∃ before behind, spellFactorials false left = .ok before ∧
      spellFactorials false right = .ok behind ∧
      spelled = before ++ '.' :: (digits ++ '!' :: behind) := by
  have hmark : EndsDigits ('!' :: right) := endsDigits_cons (by decide)
  have hpoint : ('.' == '.') = true := rfl
  rw [spellFactorials_append (by decide) (by decide), spellFactorials_cons (by decide), hpoint,
    spellFactorials_run hdigits hmark fun _ => .inl rfl,
    spellFactorials_cons (by decide)] at hspelled
  obtain ⟨before, hbefore, hspelled⟩ := bind_eq_ok_iff.1 hspelled
  obtain ⟨tail, htail, hspelled⟩ := bind_eq_ok_iff.1 hspelled
  cases hspelled
  simp only [map_eq_ok_iff] at htail
  obtain ⟨_, ⟨_, ⟨behind, hbehind, rfl⟩, rfl⟩, rfl⟩ := htail
  exact ⟨before, behind, hbefore, hbehind, rfl⟩

/-- Spelling factorials keeps the value of a scalar expression, unless a mark stands behind
an exponent or digits and their mark in front of one.  Digits behind a point are never taken
for the number under a mark. -/
theorem evaluate_spellFactorials (hspelled : spellFactorials false text = .ok spelled) :
    (∀ limit x, Scalar.evaluate limit text = .ok x → ¬FactorialOfExponent text →
      ¬ExponentOfFactorial text → Scalar.evaluate limit spelled = .ok x) ∧
    ∀ left digits right, (∀ c ∈ digits, c.isDigit = true) →
      text = left ++ '.' :: (digits ++ '!' :: right) →
      ∃ before behind, spellFactorials false left = .ok before ∧
        spellFactorials false right = .ok behind ∧
        spelled = before ++ '.' :: (digits ++ '!' :: behind) := by
  constructor
  · intro limit x hvalue hexponent hbehind
    obtain ⟨found, hfound, hvalue⟩ := bind_eq_ok_iff.1 hvalue
    obtain ⟨y, hy, hnumber⟩ := bind_eq_ok_iff.1 hvalue
    have hscans := scans_of_lexemesFrom hfound
    have hread : ∀ closing, valueFrom? limit .start (found.map Lexeme.token ++ closing) = some y →
        ∃ others, Scans spelled others ∧ valueFrom? limit .start (others ++ closing) = some y :=
      fun closing => readsSpelled_of_scans hscans hspelled hexponent hbehind
    have hspelledValue : ∃ others, Scans spelled others ∧
        (valueFrom? limit .start others = some y ∨
          valueFrom? limit .start (others ++ [.rightParen]) = some y) := by
      rcases valueOf_eq_ok_iff.1 hy with hclosed | hopen
      · obtain ⟨others, hothers, hvalue⟩ := hread [] (by rwa [List.append_nil])
        exact ⟨others, hothers, .inl (by rwa [List.append_nil] at hvalue)⟩
      · obtain ⟨others, hothers, hvalue⟩ := hread [.rightParen] hopen
        exact ⟨others, hothers, .inr hvalue⟩
    obtain ⟨others, hothers, hvalue⟩ := hspelledValue
    obtain ⟨spelledFound, hspelledFound, rfl⟩ := hothers.lexes 0
    rw [Scalar.evaluate, lexemes, hspelledFound, ok_bind, valueOf_eq_ok_iff.2 hvalue]
    exact hnumber
  · rintro left digits right hdigits rfl
    exact spellFactorials_fraction hdigits hspelled

theorem evaluate_spelled_product :
    spellFactorials false "3!×1.0!".toList = .ok "6×1.0!".toList ∧
      Scalar.solve 1 "3!×1.0!".toList = .ok "6".toList ∧
      Scalar.solve 1 "6×1.0!".toList = .ok "6".toList := by
  have hspelled : spellFactorials false "3!×1.0!".toList = .ok "6×1.0!".toList := by decide +kernel
  have hsolved : Scalar.solve 1 "3!×1.0!".toList = .ok "6".toList := by decide +kernel
  have hletters : ∀ c ∈ "3!×1.0!".toList, c ≠ 'e' ∧ c ≠ 'E' :=
    List.all_iff_forall_prop.1 (by decide)
  have hmark : ∀ e : TypedExponent, e.mark ∉ "3!×1.0!".toList := fun e hmem =>
    e.isMark.elim (hletters _ hmem).1 (hletters _ hmem).2
  have hexponent : ¬FactorialOfExponent "3!×1.0!".toList := fun ⟨c, e, _, hwithin⟩ =>
    hmark e (hwithin.subset (List.mem_cons_of_mem c (List.mem_cons_self ..)))
  have hbehind : ¬ExponentOfFactorial "3!×1.0!".toList := fun ⟨c, e, _, hwithin⟩ =>
    hmark e (hwithin.subset
      (List.mem_cons_of_mem c (List.mem_cons_of_mem _ (List.mem_cons_self ..))))
  refine ⟨hspelled, hsolved, ?_⟩
  rw [Scalar.solve, map_eq_ok_iff] at hsolved ⊢
  obtain ⟨x, hx, hwrite⟩ := hsolved
  exact ⟨x, (evaluate_spellFactorials hspelled).1 1 x hx hexponent hbehind, hwrite⟩

/-- The digits of an exponent are taken for the number under the mark, and a numeral goes on
where a factorial in front of the constant is spelled. -/
theorem solve_spelled_exponents :
    Scalar.solve 64 "1e1!".toList = .ok "3628800".toList ∧
      spellFactorials false "1e1!".toList = .ok "1e1".toList ∧
      Scalar.solve 64 "1e1".toList = .ok "10".toList ∧
      Scalar.solve 64 "3!e-2".toList = .ok "14.309690970754271".toList ∧
      spellFactorials false "3!e-2".toList = .ok "6e-2".toList ∧
      Scalar.solve 64 "6e-2".toList = .ok "0.06".toList := by
  decide +kernel

end Expression

end MatrixCalculator
