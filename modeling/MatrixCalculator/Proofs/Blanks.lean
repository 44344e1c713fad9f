import MatrixCalculator.Proofs.Base.Input
import MatrixCalculator.Proofs.Routing

/-!
# Blanks

Blanks are dropped when an expression is entered, so they mean nothing to the
evaluators.  Two things are done before that, with the text as it is typed: the
numerals of a base are replaced by decimal ones, and the evaluator is chosen.  A text
has the value that it has without its blanks where these do not divide the digits of
a numeral and do not hide the shape of a literal.
-/

namespace MatrixCalculator

open Expression Literal Numeral Outcome Text

/-! ## Texts without their blanks -/

namespace Text

variable {text left right : Text} {c : Char}

def strip (text : Text) : Text := text.filter fun c => !isBlank c

@[simp]
theorem strip_nil : strip [] = [] := rfl

theorem strip_cons_of_blank (hc : isBlank c = true) : strip (c :: text) = strip text := by
  simp [strip, hc]

theorem strip_cons (hc : isBlank c = false) : strip (c :: text) = c :: strip text := by
  simp [strip, hc]

theorem strip_append : strip (left ++ right) = strip left ++ strip right := List.filter_append ..

theorem strip_eq_self (htext : ∀ c ∈ text, isBlank c = false) : strip text = text :=
  List.filter_eq_self.2 fun c hc => by rw [htext c hc]; rfl

end Text

theorem Display.enter_strip (separators : Separators) (text : Text) :
    enter separators (strip text) = enter separators text := by
  have hlayout : (strip text).filter (fun c => !isLayout separators c) =
      text.filter fun c => !isLayout separators c := by
    rw [strip, List.filter_filter]
    refine List.filter_congr fun c _ => ?_
    cases hblank : isBlank c <;> simp [isLayout, hblank]
  rw [enter, enter, hlayout]

/-! ## Numerals of a base -/

namespace Base

variable {base : Base} {point c : Char} {text whole fraction numeral : Text}

theorem isBlank_of_isNumeralChar (hc : isNumeralChar c = true) : isBlank c = false := by
  have hcode : 0x30 ≤ c.toNat ∧ c.toNat ≤ 0x46 := by
    simp only [isNumeralChar, Char.isDigit, Bool.or_eq_true, Bool.and_eq_true, decide_eq_true_eq,
      Char.le_def, ge_iff_le, UInt32.le_iff_toNat_le] at hc
    change 0x30 ≤ c.val.toNat ∧ c.val.toNat ≤ 0x39 ∨ 0x41 ≤ c.val.toNat ∧ c.val.toNat ≤ 0x46 at hc
    change 0x30 ≤ c.val.toNat ∧ c.val.toNat ≤ 0x46
    omega
  simp only [isBlank, Bool.or_eq_false_iff, Bool.and_eq_false_iff, decide_eq_false_iff_not,
    beq_eq_false_iff_ne]
  omega

def isNumeralPart (point c : Char) : Bool := c == point || isNumeralChar c

/-- Whether there are blanks with parts of numerals on both sides. -/
def splitsNumerals (point : Char) : Text → Bool
  | [] => false
  | c :: text =>
    (isNumeralPart point c && text.head?.any isBlank &&
      (strip text).head?.any (isNumeralPart point)) || splitsNumerals point text

theorem splitsNumerals_tail (hsplits : splitsNumerals point (c :: text) = false) :
    splitsNumerals point text = false :=
  (Bool.or_eq_false_iff.1 hsplits).2

/-- The next part of a numeral without the blanks is the next character with them. -/
theorem exists_of_strip_eq_cons {d : Char} {rest : Text} (hc : isNumeralPart point c = true)
    (hsplits : splitsNumerals point (c :: text) = false)
    (hstrip : strip text = d :: rest) (hd : isNumeralPart point d = true) :
    ∃ tail, text = d :: tail ∧ strip tail = rest := by
  cases text with
  | nil => cases hstrip
  | cons e tail =>
    cases hblank : isBlank e with
    | true => simp [splitsNumerals, hc, hblank, hstrip, hd] at hsplits
    | false =>
      rw [strip_cons hblank] at hstrip
      obtain ⟨rfl, rfl⟩ := List.cons.inj hstrip
      exact ⟨tail, rfl, rfl⟩

theorem isNumeralPart_of_isNumeralChar (hc : isNumeralChar c = true) :
    isNumeralPart point c = true := by
  rw [isNumeralPart, hc, Bool.or_true]

theorem span_of_head {p : Char → Bool} (hhead : ∀ c ∈ text.head?, p c = false) :
    text.takeWhile p = [] ∧ text.dropWhile p = text := by
  cases text with
  | nil => exact ⟨rfl, rfl⟩
  | cons c text => simp [hhead c rfl]

/-- A run of digits behind a part of a numeral has no blanks in it, and behind it there
is again a part of a numeral in front of the rest. -/
theorem span_strip (hc : isNumeralPart point c = true)
    (hsplits : splitsNumerals point (c :: text) = false) :
    (strip text).takeWhile isNumeralChar = text.takeWhile isNumeralChar ∧
      (strip text).dropWhile isNumeralChar = strip (text.dropWhile isNumeralChar) ∧
      ∃ last, isNumeralPart point last = true ∧
        splitsNumerals point (last :: text.dropWhile isNumeralChar) = false := by
  induction text generalizing c with
  | nil => exact ⟨rfl, rfl, c, hc, hsplits⟩
  | cons d text ih =>
    cases hd : isNumeralChar d with
    | true =>
      obtain ⟨htake, hdrop, hlast⟩ :=
        ih (isNumeralPart_of_isNumeralChar hd) (splitsNumerals_tail hsplits)
      rw [strip_cons (isBlank_of_isNumeralChar hd)]
      simp only [List.takeWhile_cons, List.dropWhile_cons, hd, if_true, htake, hdrop]
      exact ⟨trivial, trivial, hlast⟩
    | false =>
      have hhead : ∀ e ∈ (strip (d :: text)).head?, isNumeralChar e = false := by
        intro e he
        by_contra hne
        rw [Bool.not_eq_false] at hne
        obtain ⟨rest, hrest⟩ := List.head?_eq_some_iff.1 he
        obtain ⟨tail, htail, -⟩ :=
          exists_of_strip_eq_cons hc hsplits hrest (isNumeralPart_of_isNumeralChar hne)
        cases htail
        rw [hd] at hne
        cases hne
      obtain ⟨htake, hdrop⟩ := span_of_head hhead
      have htyped : ∀ e ∈ (d :: text).head?, isNumeralChar e = false := by simpa using hd
      rw [htake, hdrop, (span_of_head htyped).1, (span_of_head htyped).2]
      exact ⟨rfl, rfl, c, hc, hsplits⟩

/-- A fraction has no blanks in it either. -/
theorem takeFraction_strip (hpoint : isBlank point = false) (hc : isNumeralPart point c = true)
    (hsplits : splitsNumerals point (c :: text) = false) :
    takeFraction point (strip text) =
        ((takeFraction point text).1, strip (takeFraction point text).2) ∧
      splitsNumerals point (takeFraction point text).2 = false := by
  have hpart : isNumeralPart point point = true := by simp [isNumeralPart]
  by_cases hfraction : ∃ d rest, text = point :: d :: rest ∧ isNumeralChar d = true
  · obtain ⟨d, rest, rfl, hd⟩ := hfraction
    have hrest := splitsNumerals_tail (splitsNumerals_tail hsplits)
    obtain ⟨htake, hdrop, last, -, hlast⟩ := span_strip (isNumeralPart_of_isNumeralChar hd) hrest
    rw [strip_cons hpoint, strip_cons (isBlank_of_isNumeralChar hd), takeFraction_cons hd,
      takeFraction_cons hd, htake, hdrop]
    exact ⟨rfl, splitsNumerals_tail hlast⟩
  · have htyped : ∀ d rest, text = point :: d :: rest → isNumeralChar d = false := by
      intro d rest htext
      by_contra hd
      rw [Bool.not_eq_false] at hd
      exact hfraction ⟨d, rest, htext, hd⟩
    have hstripped : ∀ d rest, strip text = point :: d :: rest → isNumeralChar d = false := by
      intro d rest hstrip
      by_contra hd
      rw [Bool.not_eq_false] at hd
      obtain ⟨behind, rfl, hbehind⟩ := exists_of_strip_eq_cons hc hsplits hstrip hpart
      obtain ⟨tail, rfl, -⟩ := exists_of_strip_eq_cons hpart (splitsNumerals_tail hsplits)
        hbehind (isNumeralPart_of_isNumeralChar hd)
      exact hfraction ⟨d, tail, rfl, hd⟩
    rw [takeFraction_of_ne htyped, takeFraction_of_ne hstripped]
    exact ⟨rfl, splitsNumerals_tail hsplits⟩

/-- A numeral is replaced by a text without blanks. -/
theorem strip_decimalText (hpoint : isBlank point = false)
    (hnumeral : base.decimalText point whole fraction = .ok numeral) : strip numeral = numeral :=
  strip_eq_self (forall_mem_decimalText (p := fun c => isBlank c = false) hpoint
    (List.all_iff_forall_prop.1 (by decide)) hnumeral)

/-- Where no blanks divide a numeral, they may be dropped before or after the numerals
are replaced. -/
theorem convertNumerals_strip (hpoint : isBlank point = false)
    (hsplits : splitsNumerals point text = false) :
    base.convertNumerals point (strip text) = strip <$> base.convertNumerals point text := by
  induction text using convertNumerals.induct point with
  | case1 => rw [strip_nil, convertNumerals, map_ok, strip_nil]
  | case2 c text hc afterWhole ih =>
    obtain ⟨htake, hdrop, last, hlast, hbehind⟩ :=
      span_strip (isNumeralPart_of_isNumeralChar hc) hsplits
    obtain ⟨hfraction, hrest⟩ := takeFraction_strip hpoint hlast hbehind
    rw [strip_cons (isBlank_of_isNumeralChar hc), convertNumerals, convertNumerals, if_pos hc,
      if_pos hc]
    have htail : base.convertNumerals point
        (strip (takeFraction point (text.dropWhile isNumeralChar)).2) =
          strip <$>
            base.convertNumerals point (takeFraction point (text.dropWhile isNumeralChar)).2 :=
      ih hrest
    simp only [htake, hdrop, hfraction, htail]
    cases hnumeral : base.decimalText point (c :: text.takeWhile isNumeralChar)
      (takeFraction point (text.dropWhile isNumeralChar)).1 with
    | error cause => rfl
    | ok numeral =>
      simp only [ok_bind, map_bind, bind_map_left, map_pure, strip_append,
        strip_decimalText hpoint hnumeral]
  | case3 c text hc ih =>
    have htail := ih (splitsNumerals_tail hsplits)
    cases hblank : isBlank c with
    | true =>
      rw [strip_cons_of_blank hblank, htail, convertNumerals, if_neg hc, Functor.map_map]
      simp only [strip_cons_of_blank hblank]
    | false =>
      rw [strip_cons hblank, convertNumerals, convertNumerals, if_neg hc, if_neg hc, htail,
        Functor.map_map, Functor.map_map]
      simp only [strip_cons hblank]

theorem toDecimal_strip (hpoint : isBlank point = false)
    (hsplits : base = .decimal ∨ splitsNumerals point text = false) :
    base.toDecimal point (strip text) = strip <$> base.toDecimal point text := by
  rw [toDecimal, toDecimal]
  split
  · rfl
  · next hbase => exact convertNumerals_strip hpoint (hsplits.resolve_left hbase)

end Base

/-! ## The shape of a literal -/

namespace Literal

variable {separators : Separators} {text : Text} {source target : Place} {c : Char}

/-- Blanks lead nowhere inside of the pattern. -/
theorem Place.eq_of_leads_of_blank (hpoint : isBlank separators.decimalPoint = false)
    (hmatrix : isBlank separators.matrix = false) (hc : isBlank c = true)
    (hleads : leads separators c source target = true) : source = target := by
  have hne : ∀ d, isBlank d = false → c ≠ d := by
    rintro d hd rfl
    rw [hd] at hc
    cases hc
  have hdigit : Base.isNumeralChar c = false := by
    by_contra hdigit
    rw [Bool.not_eq_false] at hdigit
    rw [Base.isBlank_of_isNumeralChar hdigit] at hc
    cases hc
  have hbracket := hne '[' (by decide)
  have hclosing := hne ']' (by decide)
  have hsign := hne '-' (by decide)
  have hminus := hne Symbol.minus (by decide)
  cases source <;> cases target <;>
    simp [leads, endsField, hbracket, hclosing, hsign, hminus, hne _ hpoint, hne _ hmatrix,
      hdigit] at hleads ⊢

theorem Place.Path.strip (hpoint : isBlank separators.decimalPoint = false)
    (hmatrix : isBlank separators.matrix = false) (hpath : Path separators source text target) :
    Path separators source (strip text) target := by
  induction hpath with
  | stay place => exact .stay place
  | @move source between target c text hleads _ ih =>
    cases hblank : isBlank c with
    | true =>
      rw [strip_cons_of_blank hblank, eq_of_leads_of_blank hpoint hmatrix hblank hleads]
      exact ih
    | false =>
      rw [strip_cons hblank]
      exact .move hleads ih

/-- A literal of plain numerals has no blanks in it, so it stays. -/
theorem HasPlainLiteral.strip (hpoint : isBlank separators.decimalPoint = false)
    (hmatrix : isBlank separators.matrix = false) (hplain : HasPlainLiteral separators text) :
    HasPlainLiteral separators (strip text) := by
  rw [← occursIn_iff, occursIn_iff_path] at hplain ⊢
  obtain ⟨before, part, rfl, hpath⟩ := hplain
  refine ⟨Text.strip before, Text.strip part, ?_, hpath.strip hpoint hmatrix⟩
  rw [strip_append, strip_cons (by decide)]

end Literal

namespace Settings

variable {settings : Settings} {text : Text}

theorem solveScalar_strip (text : Text) :
    settings.solveScalar (strip text) = settings.solveScalar text := by
  rw [solveScalar, solveScalar, Display.enter_strip]

theorem solveMatrices_strip (text : Text) :
    settings.solveMatrices (strip text) = settings.solveMatrices text := by
  simp only [solveMatrices, evaluateMatrices, Expression.evaluate, Display.enter_strip]

/-- Whether a literal can only be seen without the blanks of a text. -/
def HidesLiteral (settings : Settings) (text : Text) : Prop :=
  ∃ decimal, settings.base.toDecimal settings.separators.decimalPoint text = .ok decimal ∧
    HasPlainLiteral settings.separators (strip decimal) ∧
    ¬HasPlainLiteral settings.separators decimal

/-- Blanks change nothing if they divide no numeral that is replaced and hide no literal.
A text in which they hide one has no value, whatever it is without them. -/
theorem solve_strip (tag : Text) (hseparators : settings.separators = .ofLocale tag)
    (hnumerals : settings.base = .decimal ∨
      Base.splitsNumerals settings.separators.decimalPoint text = false) :
    (¬settings.HidesLiteral text → settings.solve (strip text) = settings.solve text) ∧
      (settings.HidesLiteral text → ∃ cause, settings.solve text = .error cause) := by
  have hblanks : isBlank settings.separators.decimalPoint = false ∧
      isBlank settings.separators.matrix = false := by
    rw [hseparators]
    rcases Separators.ofLocale_cases tag with hlocale | hlocale
    · rw [hlocale]
      decide
    · rw [hlocale]
      decide
  obtain ⟨hpoint, hmatrix⟩ := hblanks
  have hdecimal := Base.toDecimal_strip hpoint hnumerals
  constructor
  · intro hhides
    rw [solve, solve, hdecimal]
    cases htyped : settings.base.toDecimal settings.separators.decimalPoint text with
    | error cause => rfl
    | ok decimal =>
      have hrouted :
          settings.containsMatrices (strip decimal) = settings.containsMatrices decimal := by
        rw [containsMatrices, containsMatrices, Bool.eq_iff_iff, occursIn_iff, occursIn_iff]
        refine ⟨fun hplain => ?_, fun hplain => hplain.strip hpoint hmatrix⟩
        by_contra hmissing
        exact hhides ⟨decimal, htyped, hplain, hmissing⟩
      rw [map_ok, ok_bind, ok_bind, hrouted, solveMatrices_strip, solveScalar_strip]
  · rintro ⟨decimal, htyped, hplain, hmissing⟩
    have hmem : '[' ∈ decimal := (List.mem_filter.1 hplain.bracket_mem).1
    rw [← occursIn_iff] at hmissing
    rw [solve, htyped, ok_bind, containsMatrices, if_neg hmissing]
    exact solveScalar_eq_error hseparators hmem

theorem solve_strip_hexadecimal :
    let settings : Settings := { base := .hexadecimal, separators := .ofLocale "de_DE".toList }
    settings.solve "[[1,8;A]] × 10".toList = .ok "[[18;A0]]".toList ∧
      settings.solve "[[1,8;A]]×10".toList = .ok "[[18;A0]]".toList ∧
      ∃ cause, settings.solve "[[1;A ]]".toList = .error cause := by
  intro settings
  have hresult : settings.solve "[[1,8;A]] × 10".toList = .ok "[[18;A0]]".toList := by
    decide +kernel
  have hdecimal : settings.base.toDecimal settings.separators.decimalPoint
      "[[1,8;A]] × 10".toList = .ok "[[1,5;10]] × 16".toList := by decide +kernel
  have hseen : ¬settings.HidesLiteral "[[1,8;A]] × 10".toList := by
    rintro ⟨decimal, htyped, -, hmissing⟩
    rw [hdecimal] at htyped
    cases htyped
    exact hmissing (occursIn_iff.1 (by decide))
  have hhidden : settings.HidesLiteral "[[1;A ]]".toList := by
    refine ⟨"[[1;10 ]]".toList, by decide +kernel, occursIn_iff.1 (by decide), fun hplain => ?_⟩
    exact absurd (occursIn_iff.2 hplain) (by decide)
  have hsame : settings.solve "[[1,8;A]]×10".toList = settings.solve "[[1,8;A]] × 10".toList :=
    (solve_strip "de_DE".toList rfl (.inr (by decide))).1 hseen
  exact ⟨hresult, hsame.trans hresult,
    (solve_strip "de_DE".toList rfl (.inr (by decide))).2 hhidden⟩

/-- A blank makes two numerals of one and keeps a literal from being seen. -/
theorem solve_divided_by_blanks :
    let binary : Settings := { base := .binary }
    let decimal : Settings := {}
    strip "1 0".toList = "10".toList ∧ binary.solve "10".toList = .ok "10".toList ∧
      binary.solve "1 0".toList = .ok "1010".toList ∧
      strip "[[1, 2]]".toList = "[[1,2]]".toList ∧
      decimal.solve "[[1,2]]".toList = .ok "[[1,2]]".toList ∧
      decimal.solve "[[1, 2]]".toList = .error (.unexpectedToken ['['] 0) := by
  decide +kernel

end Settings

end MatrixCalculator
