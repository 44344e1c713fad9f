import MatrixCalculator.Proofs.Base.Reading
import MatrixCalculator.Proofs.Numeral.Whole

/-!
# Texts with numerals of a base

The numerals of a base are replaced one by one, and what stands between them is kept.
A numeral begins with a digit: in front of its point there have to be digits, behind it
there may be none.  So a point that follows no digit is not part of a numeral, and the
digits behind it are read as a whole number.
-/

namespace MatrixCalculator.Base

open Numeral Outcome

variable {base : Base} {point c : Char} {whole fraction rest : Text}

/-! ## Scanning -/

theorem mapM_digit? {text : Text} (htext : ∀ c ∈ text, base.IsDigit c) :
    text.mapM base.digit? = .ok (text.map digitValue) := by
  induction text with
  | nil => rfl
  | cons c text ih =>
    obtain ⟨hc, htext⟩ := List.forall_mem_cons.1 htext
    rw [List.mapM_cons, digit?, if_pos hc.2, ok_bind, ih htext]
    rfl

/-- A text with its point replaced. -/
def pointed (point : Char) (text : Text) : Text := text.map fun c => if c = '.' then point else c

theorem pointed_same (text : Text) : pointed '.' text = text := by
  have hpoint : (fun c : Char => if c = '.' then '.' else c) = id := by
    funext c
    split
    · next hc => exact hc.symm
    · rfl
  rw [pointed, hpoint, List.map_id]

theorem decimalText_eq (point : Char) (hwhole : ∀ c ∈ whole, base.IsDigit c)
    (hfraction : ∀ c ∈ fraction, base.IsDigit c) :
    base.decimalText point whole fraction = .ok (pointed point (writePositional
      (base.numeralValue (whole.map digitValue) (fraction.map digitValue)))) := by
  rw [decimalText, mapM_digit? hwhole, mapM_digit? hfraction]
  rfl

/-- A run of digits ends in front of a character that is none. -/
theorem scan_digits (hwhole : ∀ c ∈ whole, base.IsDigit c)
    (hrest : ∀ c ∈ rest.head?, isNumeralChar c = false) :
    (whole ++ rest).takeWhile isNumeralChar = whole ∧
      (whole ++ rest).dropWhile isNumeralChar = rest := by
  have hnumeral : ∀ c ∈ whole, isNumeralChar c = true := fun c hc => (hwhole c hc).1
  exact ⟨Text.takeWhile_run hnumeral hrest, Text.dropWhile_run hnumeral hrest⟩

theorem convertNumerals_other (hc : isNumeralChar c = false) (text : Text) :
    base.convertNumerals point (c :: text) = (c :: ·) <$> base.convertNumerals point text := by
  rw [convertNumerals, if_neg]
  rw [hc]
  exact Bool.false_ne_true

/-! ## Numerals as they are typed -/

/-- A numeral of a base as it is typed: digits, and behind them there may be a point, with
more digits or with none. -/
structure Spelled (base : Base) where
  whole : Text
  fraction : Option Text
  isDigit : ∀ c ∈ whole ++ fraction.getD [], base.IsDigit c
  whole_ne_nil : whole ≠ []

/-- Whether a text with its own point is a decimal numeral that is read as a number. -/
def Denotes (point : Char) (text : Text) (r : Rat) : Prop :=
  ∃ s : TypedNumeral, pointed point s.text = text ∧ IsExact s.value r

namespace Spelled

variable (s : Spelled base)

def fractionDigits : Text := s.fraction.getD []

def text (point : Char) : Text := s.whole ++ s.fraction.elim [] (point :: ·)

def value : Rat := base.denotedFraction s.whole s.fractionDigits

def barePoint (point : Char) : Text := if s.fraction = some [] then [point] else []

def converted (point : Char) : Text :=
  pointed point (writePositional (nearest s.value)) ++ s.barePoint point

/-- Whether a numeral denotes a double and ends at a place that doubles can count.  In binary
the second follows from the first. -/
structure HasDouble : Prop where
  representable : Representable s.value
  countsPlaces : base = .hexadecimal → base.CountsPlaces (trimZeros s.fractionDigits).length

theorem isDigit_whole : ∀ c ∈ s.whole, base.IsDigit c := (List.forall_mem_append.1 s.isDigit).1

theorem isDigit_fractionDigits : ∀ c ∈ s.fractionDigits, base.IsDigit c :=
  (List.forall_mem_append.1 s.isDigit).2

end Spelled

theorem digitValue_eq_one (hc : binary.IsDigit c) (hzero : c ≠ '0') : digitValue c = 1 :=
  of_isNumeralChar (fun c => digitValue c < 2 → c ≠ '0' → digitValue c = 1)
    (List.all_iff_forall_prop.1 (by decide)) hc.1 hc.2 hzero

/-- A number of halves of a unit that is a whole number of units is even. -/
theorem eq_of_div_eq {n units places more : Nat}
    (hvalue : (n : Rat) / 2 ^ (places + (more + 1)) = units * 2 ^ (-(places : Int))) :
    n = units * 2 ^ more * 2 := by
  rw [zpow_neg, zpow_natCast, div_eq_iff (by positivity)] at hvalue
  have hcast : (n : Rat) = units * 2 ^ more * 2 := by
    rw [hvalue]
    field_simp
    ring
  exact_mod_cast hcast

/-- A binary numeral that denotes a double ends at a place that doubles can count. -/
theorem countsPlaces_of_representable (hfraction : ∀ c ∈ fraction, binary.IsDigit c)
    (hvalue : Representable (binary.denotedFraction whole fraction)) :
    binary.CountsPlaces (trimZeros fraction).length := by
  by_contra hplaces
  rw [CountsPlaces, finestGrid, show binary.radix.log2 = 1 from rfl] at hplaces
  obtain ⟨more, hlength⟩ : ∃ more, (trimZeros fraction).length = 1074 + (more + 1) :=
    ⟨(trimZeros fraction).length - 1075, by omega⟩
  -- The last digit is a one, so the digits denote an odd number.
  obtain ⟨kept, c, hkept⟩ : ∃ kept c, trimZeros fraction = kept ++ [c] := by
    rcases List.eq_nil_or_concat' (trimZeros fraction) with hnil | hkept
    · rw [hnil, List.length_nil] at hlength
      omega
    · exact hkept
  have hc : digitValue c = 1 := by
    refine digitValue_eq_one (hfraction c (mem_of_mem_trimZeros ?_)) ?_
    · rw [hkept]
      exact List.mem_append_right _ (List.mem_singleton_self c)
    · rintro rfl
      exact getLast?_trimZeros fraction (by rw [hkept, List.getLast?_concat])
  have hodd : binary.denoted (whole ++ trimZeros fraction) =
      binary.denoted (whole ++ kept) * 2 + 1 := by
    rw [hkept, ← List.append_assoc, denoted_append, denoted_singleton, hc, List.length_singleton,
      pow_one]
    rfl
  obtain ⟨units, hunits⟩ := hvalue.exists_units
  rw [← denotedFraction_trimZeros, denotedFraction, hlength,
    show finestGrid = -((1074 : Nat) : Int) from rfl] at hunits
  have heven := eq_of_div_eq hunits
  omega

namespace Spelled

variable {s : Spelled base}

theorem numeralValue_eq (hbase : base ≠ .decimal) (hs : s.HasDouble) :
    base.numeralValue (s.whole.map digitValue) (s.fractionDigits.map digitValue) =
      nearest s.value := by
  have hplaces : base.CountsPlaces (trimZeros s.fractionDigits).length := by
    cases base with
    | decimal => exact absurd rfl hbase
    | binary => exact countsPlaces_of_representable s.isDigit_fractionDigits hs.representable
    | hexadecimal => exact hs.countsPlaces rfl
  exact (numeralValue_isExact hbase s.isDigit_whole s.isDigit_fractionDigits hplaces
    hs.representable).nearest.symm

/-- What is taken for a fraction, and the point that is left where there are no digits. -/
theorem takeFraction_text (hrest : ∀ c ∈ rest.head?, isNumeralChar c = false ∧ c ≠ point) :
    takeFraction point (s.fraction.elim [] (point :: ·) ++ rest) =
      (s.fractionDigits, s.barePoint point ++ rest) := by
  have hdigits := s.isDigit_fractionDigits
  rw [fractionDigits] at hdigits ⊢
  rw [barePoint]
  revert hdigits
  cases s.fraction with
  | none =>
    refine fun _ => takeFraction_of_ne fun d tail htail => ?_
    exact absurd rfl (hrest point (by rw [show rest = _ from htail]; rfl)).2
  | some digits =>
    cases digits with
    | nil =>
      refine fun _ => takeFraction_of_ne fun d tail htail => ?_
      obtain ⟨-, hrestEq⟩ := List.cons.inj htail
      exact (hrest d (by rw [show rest = _ from hrestEq]; rfl)).1
    | cons d digits =>
      intro hdigits
      obtain ⟨hd, hdigits⟩ := List.forall_mem_cons.1 hdigits
      obtain ⟨htake, hdrop⟩ := scan_digits hdigits fun c hc => (hrest c hc).1
      rw [Option.elim_some, List.cons_append, List.cons_append, takeFraction_cons hd.1, htake,
        hdrop]
      rfl

/-- A numeral is replaced, whatever follows. -/
theorem convertNumerals_text (hbase : base ≠ .decimal) (hpoint : isNumeralChar point = false)
    (hs : s.HasDouble) (hrest : ∀ c ∈ rest.head?, isNumeralChar c = false ∧ c ≠ point) :
    base.convertNumerals point (s.text point ++ rest) =
      (s.converted point ++ ·) <$> base.convertNumerals point rest := by
  have hnumeral := decimalText_eq point s.isDigit_whole s.isDigit_fractionDigits
  rw [numeralValue_eq hbase hs] at hnumeral
  have hends : ∀ c ∈ (s.fraction.elim [] (point :: ·) ++ rest).head?, isNumeralChar c = false := by
    cases s.fraction with
    | none => exact fun c hc => (hrest c hc).1
    | some digits =>
      rintro _ ⟨⟩
      exact hpoint
  obtain ⟨d, run, hwhole⟩ := List.exists_cons_of_ne_nil s.whole_ne_nil
  have hdigits := s.isDigit_whole
  rw [hwhole] at hdigits hnumeral
  obtain ⟨hd, hrun⟩ := List.forall_mem_cons.1 hdigits
  obtain ⟨htake, hdrop⟩ := scan_digits hrun hends
  rw [text, hwhole, List.append_assoc, List.cons_append, convertNumerals, if_pos hd.1, htake,
    hdrop]
  simp only [takeFraction_text hrest, hnumeral, ok_bind]
  have hbare : base.convertNumerals point (s.barePoint point ++ rest) =
      (s.barePoint point ++ ·) <$> base.convertNumerals point rest := by
    rw [barePoint]
    split
    · exact convertNumerals_other hpoint rest
    · exact (id_map _).symm
  rw [hbare, converted]
  cases base.convertNumerals point rest with
  | error fault => rfl
  | ok decimal => simp [ok_bind]

/-- A numeral is replaced by one that denotes the same number. -/
theorem denotes_converted (point : Char) (hs : s.HasDouble) :
    Denotes point (s.converted point) s.value := by
  have hexact := hs.representable.isExact
  by_cases hbare : s.fraction = some []
  · -- Behind the digits of a whole number the point stays where it is.
    have hwhole : s.value = base.denoted s.whole := by
      rw [value, denotedFraction, fractionDigits, hbare]
      simp
    rw [hwhole] at hexact
    obtain ⟨digits, htext, hvalue⟩ := exists_writePositional_whole hexact
    refine ⟨⟨digits.text, some [], none, ?_, ?_⟩, ?_, ?_⟩
    · rw [Option.getD_some, List.append_nil]
      exact digits.isDigit
    · rw [Option.getD_some, List.append_nil]
      exact digits.ne_nil
    · rw [converted, barePoint, if_pos hbare, hwhole, ← htext]
      exact List.map_append
    · rw [hwhole]
      have hdouble : Decimal.toDouble ⟨ofDigits (digits.text ++ []), 0 - (0 : Nat)⟩ =
          nearest (base.denoted s.whole) := by
        rw [Decimal.toDouble_eq_nearest, Decimal.toRat, List.append_nil, Nat.cast_zero, sub_zero,
          zpow_zero, mul_one, hvalue]
      rwa [← hdouble] at hexact
  · obtain ⟨t, htext, hvalue⟩ := exists_writePositional hexact.isFinite hexact.isNegative
    refine ⟨t.typed, ?_, ?_⟩
    · rw [converted, barePoint, if_neg hbare, List.append_nil, t.text_typed, htext]
    · rwa [t.value_typed, hvalue]

end Spelled

/-! ## Digits that are none of the base -/

/-- Whether a character is a digit, but none of the base. -/
def isForeign (base : Base) (c : Char) : Bool :=
  isNumeralChar c && !decide (digitValue c < base.radix)

/-- Whether an outcome is the one that the digits of a text call for: the first that is none
of the base is named, and without such a digit there is an answer. -/
def Checks {α : Type} (base : Base) (text : Text) (outcome : Except Fault α) : Prop :=
  match text.find? base.isForeign with
  | some c => outcome = .error (.invalidDigit c base.radix)
  | none => ∃ a, outcome = .ok a

section Checks

variable {α β : Type} {left right : Text} {outcome : Except Fault α}

theorem Checks.bind {f : α → Except Fault β} (hleft : base.Checks left outcome)
    (hright : ∀ a, base.Checks right (f a)) : base.Checks (left ++ right) (outcome >>= f) := by
  rw [Checks] at hleft ⊢
  rw [List.find?_append]
  cases hfind : left.find? base.isForeign with
  | some c =>
    rw [hfind] at hleft
    rw [show outcome = .error (.invalidDigit c base.radix) from hleft]
    rfl
  | none =>
    rw [hfind] at hleft
    obtain ⟨a, rfl⟩ := hleft
    exact hright a

theorem Checks.map (f : α → β) (hleft : base.Checks left outcome) :
    base.Checks left (f <$> outcome) := by
  rw [Checks] at hleft ⊢
  split at hleft
  · rw [hleft]
    rfl
  · obtain ⟨a, rfl⟩ := hleft
    exact ⟨f a, rfl⟩

theorem isForeign_of_not (hc : isNumeralChar c = false) : base.isForeign c = false := by
  rw [isForeign, hc, Bool.false_and]

/-- What is no digit does not matter. -/
theorem Checks.insert (hrest : base.Checks (left ++ right) outcome)
    (hc : isNumeralChar c = false) : base.Checks (left ++ c :: right) outcome := by
  have hskip : (c :: right).find? base.isForeign = right.find? base.isForeign := by
    refine List.find?_cons_of_neg ?_
    rw [isForeign_of_not hc]
    exact Bool.false_ne_true
  rw [Checks, List.find?_append] at hrest ⊢
  rwa [hskip]

end Checks

theorem checks_digit? (hc : isNumeralChar c = true) : base.Checks [c] (base.digit? c) := by
  rw [Checks, digit?, List.find?_singleton, isForeign, hc, Bool.true_and]
  by_cases hvalid : digitValue c < base.radix
  · simp [hvalid]
  · simp [hvalid]

theorem checks_mapM {text : Text} (htext : ∀ c ∈ text, isNumeralChar c = true) :
    base.Checks text (text.mapM base.digit?) := by
  induction text with
  | nil => exact ⟨[], rfl⟩
  | cons c text ih =>
    obtain ⟨hc, htext⟩ := List.forall_mem_cons.1 htext
    rw [List.mapM_cons, ← List.singleton_append]
    exact (checks_digit? hc).bind fun digit => (ih htext).map (digit :: ·)

theorem checks_decimalText (hwhole : ∀ c ∈ whole, isNumeralChar c = true)
    (hfraction : ∀ c ∈ fraction, isNumeralChar c = true) :
    base.Checks (whole ++ fraction) (base.decimalText point whole fraction) :=
  (checks_mapM hwhole).bind fun _ => (checks_mapM hfraction).map _

/-- A text is refused at its first digit that is none of the base, and only there. -/
theorem checks_convertNumerals (hpoint : isNumeralChar point = false) (text : Text) :
    base.Checks text (base.convertNumerals point text) := by
  induction text using convertNumerals.induct point with
  | case1 =>
    rw [convertNumerals]
    exact ⟨[], rfl⟩
  | case2 c text hc afterWhole ih =>
    have hwhole : ∀ d ∈ c :: text.takeWhile isNumeralChar, isNumeralChar d = true :=
      List.forall_mem_cons.2 ⟨hc, fun _ => List.mem_takeWhile_imp⟩
    have hnumeral : base.Checks _ (base.decimalText point _ (takeFraction point afterWhole).1) :=
      checks_decimalText hwhole fun _ => isNumeralChar_of_mem_takeFraction
    have hscanned : base.Checks ((c :: text.takeWhile isNumeralChar) ++
        ((takeFraction point afterWhole).1 ++ (takeFraction point afterWhole).2))
        (base.convertNumerals point (c :: text)) := by
      rw [convertNumerals, if_pos hc, ← List.append_assoc]
      exact hnumeral.bind fun numeral => ih.map (numeral ++ ·)
    have hsplit : c :: text = (c :: text.takeWhile isNumeralChar) ++ afterWhole := by
      rw [List.cons_append, List.takeWhile_append_dropWhile]
    generalize base.convertNumerals point (c :: text) = outcome at hscanned ⊢
    rw [hsplit, ← takeFraction_append point afterWhole]
    split
    · next hnone =>
      rw [hnone] at hscanned
      exact hscanned
    · exact hscanned.insert hpoint
  | case3 c text hc ih =>
    rw [convertNumerals, if_neg hc]
    have hkept : base.Checks ([] ++ text) _ := ih.map (c :: ·)
    exact hkept.insert (Bool.eq_false_iff.2 hc)

/-! ## Texts of numerals and other characters -/

inductive Part (base : Base) where
  | numeral (s : Spelled base)
  | other (c : Char)

def textOf (spell : Spelled base → Text) : List (Part base) → Text
  | [] => []
  | .numeral s :: parts => spell s ++ textOf spell parts
  | .other c :: parts => c :: textOf spell parts

/-- Parts that stay apart as a text: a numeral is followed by another character, which is
neither a digit nor the point. -/
inductive Apart (point : Char) : List (Part base) → Prop
  | nil : Apart point []
  | other {c : Char} {parts : List (Part base)} (hc : isNumeralChar c = false)
      (hparts : Apart point parts) : Apart point (.other c :: parts)
  | last (s : Spelled base) : Apart point [.numeral s]
  | numeral (s : Spelled base) {c : Char} {parts : List (Part base)}
      (hc : isNumeralChar c = false) (hpoint : c ≠ point) (hparts : Apart point parts) :
      Apart point (.numeral s :: .other c :: parts)

theorem convertNumerals_textOf (hbase : base ≠ .decimal) (hpoint : isNumeralChar point = false)
    {parts : List (Part base)} (hparts : Apart point parts)
    (hdouble : ∀ s, .numeral s ∈ parts → s.HasDouble) :
    base.convertNumerals point (textOf (Spelled.text · point) parts) =
      .ok (textOf (Spelled.converted · point) parts) := by
  induction hparts with
  | nil =>
    rw [textOf, convertNumerals]
    rfl
  | other hc hparts ih =>
    have hrest := ih fun s hs => hdouble s (List.mem_cons_of_mem _ hs)
    rw [textOf, convertNumerals_other hc, hrest]
    rfl
  | last s =>
    have hs := hdouble s (List.mem_singleton_self _)
    have hends : ∀ d ∈ ([] : Text).head?, isNumeralChar d = false ∧ d ≠ point := by simp
    have hstep := s.convertNumerals_text hbase hpoint hs hends
    rw [convertNumerals] at hstep
    exact hstep
  | @numeral s c parts hc hne hparts ih =>
    have hs := hdouble s List.mem_cons_self
    have hrest := ih fun s hs => hdouble s (List.mem_cons_of_mem _ (List.mem_cons_of_mem _ hs))
    have hends : ∀ d ∈ (c :: textOf (Spelled.text · point) parts).head?,
        isNumeralChar d = false ∧ d ≠ point := by
      rintro _ ⟨⟩
      exact ⟨hc, hne⟩
    have hstep := s.convertNumerals_text hbase hpoint hs hends
    rw [convertNumerals_other hc, hrest] at hstep
    exact hstep

/-- In a text of numerals that denote doubles each numeral is replaced by a decimal one that
denotes the same number, and the other characters stay where they are.  A text with a digit
that is none of the base is refused with the first such digit, and any other is converted. -/
theorem toDecimal_textOf (hbase : base ≠ .decimal) (hpoint : isNumeralChar point = false) :
    (∀ parts : List (Part base), Apart point parts →
      (∀ s, .numeral s ∈ parts → s.HasDouble) →
      base.toDecimal point (textOf (Spelled.text · point) parts) =
          .ok (textOf (Spelled.converted · point) parts) ∧
        ∀ s, .numeral s ∈ parts → Denotes point (s.converted point) s.value) ∧
    ∀ text, base.Checks text (base.toDecimal point text) := by
  refine ⟨fun parts hparts hdouble => ⟨?_, fun s hs => ?_⟩, fun text => ?_⟩
  · rw [toDecimal, if_neg hbase]
    exact convertNumerals_textOf hbase hpoint hparts hdouble
  · exact Spelled.denotes_converted point (hdouble s hs)
  · rw [toDecimal, if_neg hbase]
    exact checks_convertNumerals hpoint text

theorem toDecimal_binary_product :
    toDecimal .binary ',' "10,1×11,".toList = .ok "2,5×3,".toList ∧
      Denotes ',' "2,5".toList (5 / 2) ∧ Denotes ',' "3,".toList 3 ∧
      toDecimal .binary ',' "10,1×12".toList = .error (.invalidDigit '2' 2) := by
  obtain ⟨left, hleft, hleftValue, hleftText⟩ : ∃ s : Spelled .binary, s.text ',' = "10,1".toList ∧
      s.value = 5 / 2 ∧ s.converted ',' = "2,5".toList :=
    ⟨⟨['1', '0'], some ['1'], List.forall_iff_forall_mem.1 (by decide), by decide⟩, by decide,
      by decide +kernel, by decide +kernel⟩
  obtain ⟨right, hright, hrightValue, hrightText⟩ : ∃ s : Spelled .binary,
      s.text ',' = "11,".toList ∧ s.value = 3 ∧ s.converted ',' = "3,".toList :=
    ⟨⟨['1', '1'], some [], List.forall_iff_forall_mem.1 (by decide), by decide⟩, by decide,
      by decide +kernel, by decide +kernel⟩
  have hparts : Apart ',' [.numeral left, .other '×', .numeral right] :=
    .numeral left (by decide) (by decide) (.last right)
  obtain ⟨hconverted, hforeign⟩ := @toDecimal_textOf .binary ',' (by decide) (by decide)
  obtain ⟨htext, hdenotes⟩ := hconverted _ hparts fun s hs => by
    simp only [List.mem_cons, Part.numeral.injEq, reduceCtorEq, List.not_mem_nil, or_false,
      false_or] at hs
    rcases hs with rfl | rfl
    · refine ⟨⟨5, -1, by decide, by decide, units_mul_lt (by decide) (by decide), ?_⟩, nofun⟩
      rw [hleftValue]
      norm_num
    · refine ⟨⟨3, 0, by decide, by decide, units_mul_lt (by decide) (by decide), ?_⟩, nofun⟩
      rw [hrightValue]
      norm_num
  refine ⟨?_, ?_, ?_, hforeign "10,1×12".toList⟩
  · simp only [textOf, hleft, hright, hleftText, hrightText] at htext
    exact htext
  · rw [← hleftText, ← hleftValue]
    exact hdenotes left (by simp)
  · rw [← hrightText, ← hrightValue]
    exact hdenotes right (by simp)

/-- A point with no digit in front of it stays, and the digits behind it are replaced by the
whole number that they denote. -/
theorem toDecimal_leading_point :
    toDecimal .binary '.' ".1".toList = .ok ".1".toList ∧
      binary.denotedFraction [] ['1'] = 1 / 2 ∧ ¬Denotes '.' ".1".toList (1 / 2) := by
  refine ⟨by decide +kernel, by decide +kernel, ?_⟩
  rintro ⟨s, htext, hexact⟩
  rw [pointed_same] at htext
  have hread := s.read?_text
  have htenth : read? ".1".toList = some 0.1 := by decide +kernel
  rw [htext, htenth] at hread
  rw [← Option.some.inj hread] at hexact
  have hvalue : magnitude 0.1 ≠ 1 / 2 := by decide +kernel
  exact hvalue hexact.magnitude

/-! ## What has been written in the base -/

def Rendered.spelled (numeral : Rendered base) : Spelled base where
  whole := numeral.whole
  fraction := if numeral.fraction = [] then none else some numeral.fraction
  isDigit := by
    have hdigits := numeral.isDigit
    split
    · next hnil => rwa [hnil] at hdigits
    · exact hdigits
  whole_ne_nil := numeral.whole_ne_nil

namespace Rendered

variable (numeral : Rendered base)

theorem fractionDigits_spelled : numeral.spelled.fractionDigits = numeral.fraction := by
  rw [Spelled.fractionDigits, spelled]
  dsimp only
  split
  · next hnil => exact hnil.symm
  · rfl

theorem value_spelled : numeral.spelled.value = numeral.value := by
  rw [Spelled.value, fractionDigits_spelled]
  rfl

theorem text_spelled : numeral.spelled.text '.' = numeral.text := by
  rw [Spelled.text, text, withPoint, spelled]
  dsimp only
  split
  · rfl
  · rfl

theorem converted_spelled :
    numeral.spelled.converted '.' = writePositional (nearest numeral.value) := by
  have hbare : numeral.spelled.fraction ≠ some [] := by
    rw [spelled]
    dsimp only
    split
    · exact nofun
    · next hne => exact fun hsome => hne (Option.some.inj hsome)
  rw [Spelled.converted, Spelled.barePoint, if_neg hbare, value_spelled, pointed_same,
    List.append_nil]

theorem hasDouble_spelled (hvalue : Representable numeral.value) : numeral.spelled.HasDouble where
  representable := by rwa [value_spelled]
  countsPlaces := fun _ => base.countsPlaces_fractionPlaces.mono (by
    rw [fractionDigits_spelled]
    exact (length_trimZeros_le numeral.fraction).trans numeral.length_fraction)

end Rendered

/-- A sign stays in front of a numeral. -/
theorem toDecimal_signed (hbase : base ≠ .decimal) (numeral : Rendered base)
    (hvalue : Representable numeral.value) (x : Float) :
    base.toDecimal '.' (signed x numeral.text) =
      .ok (signed x (writePositional (nearest numeral.value))) := by
  have hpoint : isNumeralChar '.' = false := by decide
  have hnumeral := convertNumerals_textOf hbase hpoint (.last numeral.spelled)
    (fun s hs => by
      cases List.mem_singleton.1 hs
      exact numeral.hasDouble_spelled hvalue)
  rw [textOf, textOf, textOf, textOf, List.append_nil, List.append_nil, numeral.text_spelled,
    numeral.converted_spelled] at hnumeral
  rw [toDecimal, if_neg hbase, signed, signed]
  split
  · rw [convertNumerals_other (by decide), hnumeral]
    rfl
  · exact hnumeral

end MatrixCalculator.Base
