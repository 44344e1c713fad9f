import MatrixCalculator.Operand
import MatrixCalculator.Proofs.Base.RoundTrip
import MatrixCalculator.Proofs.Numeral.Comparison

/-!
# Zeros with a sign

A number that is noise is written as zero without its sign.  In another base the fraction is
cut behind its last place, and the sign stays where it is.  In binary the cut takes more
than the noise: a small negative number is left with its sign in front of nothing but
zeros.  In the other bases no number between the two bounds is left.
-/

namespace MatrixCalculator

open Numeral

namespace Operand

/-- The numbers of an operand, those of a matrix in reading order. -/
def numbers : Operand → List Float
  | scalar x => [x]
  | matrix m => m.entries

/-- The text of an operand whose numbers are spelled in some way. -/
def writeBy (spell : Float → Text) : Operand → Text
  | scalar x => spell x
  | matrix m =>
    ['['] ++ m.rows.flatMap (fun row => ['['] ++ [','].intercalate (row.map spell) ++ [']']) ++ [']']

theorem writeBy_write (v : Operand) : v.writeBy Numeral.write = v.write := by
  cases v <;> rfl

end Operand

namespace Base

open Scalar

variable {base : Base} {x : Float} {text rest : Text}

/-! ## Results in a base -/

theorem endsNumeral_cons {c : Char} (hc : c ∈ [',', '[', ']']) : EndsNumeral (c :: rest) := by
  have hends : ∀ c ∈ [',', '[', ']'], c.isDigit = false ∧ c ≠ '.' ∧ c ≠ 'e' ∧ c ≠ 'E' :=
    List.all_iff_forall_prop.1 (by decide)
  rintro _ ⟨⟩
  exact hends c hc

theorem renderNumerals_nil (base : Base) : base.renderNumerals [] = [] := by
  rw [renderNumerals]

/-- A written number is replaced on its own. -/
theorem renderNumerals_write_append (base : Base) (hx : x.isFinite = true)
    (hrest : EndsNumeral rest) :
    base.renderNumerals (write x ++ rest) =
      base.renderNumerals (write x) ++ base.renderNumerals rest := by
  have halone := base.renderNumerals_write hx endsNumeral_nil
  rw [renderNumerals_nil, List.append_nil, List.append_nil] at halone
  rw [base.renderNumerals_write hx hrest, halone]

/-- The fields of a row are replaced one by one. -/
theorem renderNumerals_fields (base : Base) {row : List Float}
    (hrow : ∀ x ∈ row, x.isFinite = true) (hrest : EndsNumeral rest) :
    base.renderNumerals ([','].intercalate (row.map write) ++ rest) =
      [','].intercalate (row.map fun x => base.renderNumerals (write x)) ++
        base.renderNumerals rest := by
  induction row with
  | nil => rfl
  | cons x row ih =>
    obtain ⟨hx, hrow⟩ := List.forall_mem_cons.1 hrow
    cases row with
    | nil => simpa using base.renderNumerals_write_append hx hrest
    | cons y row =>
      have hcomma : ∀ rest, EndsNumeral (',' :: rest) := fun rest => endsNumeral_cons (by decide)
      simp only [List.map_cons, List.intercalate_cons_cons, List.append_assoc, List.cons_append,
        List.nil_append] at ih ⊢
      rw [base.renderNumerals_write_append hx (hcomma _), renderNumerals_cons base (by decide),
        ih hrow]

/-- The rows of a literal are replaced one by one. -/
theorem renderNumerals_rows (base : Base) {rows : List (List Float)}
    (hrows : ∀ row ∈ rows, ∀ x ∈ row, x.isFinite = true) (rest : Text) :
    base.renderNumerals (rows.flatMap Literal.writeRow ++ rest) =
      rows.flatMap (fun row =>
        ['['] ++ [','].intercalate (row.map fun x => base.renderNumerals (write x)) ++ [']']) ++
          base.renderNumerals rest := by
  induction rows with
  | nil => rfl
  | cons row rows ih =>
    obtain ⟨hrow, hrows⟩ := List.forall_mem_cons.1 hrows
    have hclose : ∀ rest, EndsNumeral (']' :: rest) := fun rest => endsNumeral_cons (by decide)
    simp only [List.flatMap_cons, Literal.writeRow, List.append_assoc, List.cons_append,
      List.nil_append] at ih ⊢
    rw [renderNumerals_cons base (by decide), base.renderNumerals_fields hrow (hclose _),
      renderNumerals_cons base (by decide), ih hrows]

/-- Every number of a result is replaced on its own, and all else of it stays. -/
theorem ofDecimal_writeBy (base : Base) {v : Operand} (hv : ∀ x ∈ v.numbers, x.isFinite = true) :
    base.ofDecimal v.write = v.writeBy fun x => base.ofDecimal (write x) := by
  by_cases hbase : base = .decimal
  · subst hbase
    exact v.writeBy_write.symm
  · simp only [ofDecimal, if_neg hbase]
    cases v with
    | scalar x => rfl
    | matrix m =>
      have hrows : ∀ row ∈ m.rows, ∀ x ∈ row, x.isFinite = true :=
        fun row hrow x hx => hv x (List.mem_flatten_of_mem hrow hx)
      rw [Operand.write, Literal.write, Operand.writeBy, List.append_assoc, List.singleton_append,
        renderNumerals_cons base (by decide), base.renderNumerals_rows hrows,
        renderNumerals_cons base (by decide), renderNumerals_nil, List.append_assoc,
        List.singleton_append]

/-! ## Shown digits -/

/-- Whether a numeral shows a digit other than zero in front of its exponent. -/
def ShowsDigit (text : Text) : Prop :=
  ∃ c ∈ text.takeWhile (· != 'e'), isNumeralChar c = true ∧ c ≠ '0'

instance (text : Text) : Decidable (ShowsDigit text) := List.decidableBEx _ _

/-- Whether a numeral has a sign and shows no digit but zeros. -/
def IsSignedZero (text : Text) : Prop := text.head? = some '-' ∧ ¬ShowsDigit text

instance (text : Text) : Decidable (IsSignedZero text) := inferInstanceAs (Decidable (_ ∧ _))

/-- A sign is no digit. -/
theorem isSignedZero_signed (y : Float) (htext : text.head? ≠ some '-') :
    IsSignedZero (signed y text) ↔ isNegative y = true ∧ ¬ShowsDigit text := by
  have hsign : ShowsDigit ('-' :: text) ↔ ShowsDigit text := by
    simp [ShowsDigit, isNumeralChar]
  rw [IsSignedZero, signed]
  cases isNegative y with
  | true =>
    rw [if_pos rfl, hsign, List.head?_cons]
    exact and_congr_left' (iff_of_true rfl rfl)
  | false =>
    rw [if_neg Bool.false_ne_true]
    exact iff_of_false (fun h => htext h.1) (fun h => Bool.false_ne_true h.1)

theorem mem_mantissa {whole fraction : Text} {c : Char} (hc : c ∈ whole ++ withPoint fraction) :
    c = '.' ∨ c ∈ whole ++ fraction := by
  rcases List.mem_append.1 hc with hc | hc
  · exact .inr (List.mem_append_left _ hc)
  · exact (mem_withPoint hc).imp id (List.mem_append_right _)

theorem mem_mantissa_of_mem {whole fraction : Text} {c : Char} (hc : c ∈ whole ++ fraction) :
    c ∈ whole ++ withPoint fraction := by
  rcases List.mem_append.1 hc with hc | hc
  · exact List.mem_append_left _ hc
  · rw [withPoint, if_neg (List.ne_nil_of_mem hc)]
    exact List.mem_append_right _ (List.mem_cons_of_mem _ hc)

/-- Where only zeros are shown, all digits in front of an exponent are zeros. -/
theorem eq_zeros_of_not_showsDigit {whole fraction behind : Text}
    (hdigits : ∀ c ∈ whole ++ fraction, isNumeralChar c = true)
    (hshows : ¬ShowsDigit (whole ++ withPoint fraction ++ behind)) :
    whole ++ fraction = List.replicate (whole ++ fraction).length '0' := by
  have hfront : ∀ c ∈ whole ++ withPoint fraction, (c != 'e') = true := by
    intro c hc
    rcases mem_mantissa hc with rfl | hc
    · rfl
    · exact of_isNumeralChar (fun c => (c != 'e') = true) (List.all_iff_forall_prop.1 (by decide))
        (hdigits c hc)
  rw [ShowsDigit, List.takeWhile_append_of_pos hfront] at hshows
  refine List.eq_replicate_iff.2 ⟨rfl, fun c hc => ?_⟩
  by_contra hne
  exact hshows ⟨c, List.mem_append_left _ (mem_mantissa_of_mem hc), hdigits c hc, hne⟩

theorem fractionText_eq_withPoint (s : Spelling) : s.fractionText = withPoint s.fractionDigits := by
  rw [Spelling.fractionText, Spelling.fractionDigits, withPoint]
  cases s.fraction with
  | none => rfl
  | some digits => exact (if_neg digits.ne_nil).symm

/-- A decimal numeral that shows only zeros denotes zero. -/
theorem magnitude_value_of_not_showsDigit {s : Spelling} (hshows : ¬ShowsDigit s.text) :
    magnitude s.value = 0 := by
  have hfraction : ∀ c ∈ s.fractionDigits, c.isDigit = true := by
    rw [Spelling.fractionDigits]
    cases s.fraction with
    | none => exact List.forall_mem_nil _
    | some digits => exact digits.isDigit
  have hdigits : ∀ c ∈ s.whole.text ++ s.fractionDigits, isNumeralChar c = true := by
    intro c hc
    rw [isNumeralChar, List.forall_mem_append.2 ⟨s.whole.isDigit, hfraction⟩ c hc, Bool.true_or]
  rw [Spelling.text, ← List.append_assoc, fractionText_eq_withPoint] at hshows
  have hzeros := eq_zeros_of_not_showsDigit hdigits hshows
  have hzero : s.decimal.toRat = 0 := by
    rw [Spelling.decimal, hzeros, ofDigits_zeros, Decimal.toRat, Nat.cast_zero, zero_mul]
  rw [Spelling.value, Decimal.toDouble_eq_nearest, hzero, isExact_zero.nearest,
    isExact_zero.magnitude]

theorem denoted_eq_zero_iff (htext : ∀ c ∈ text, base.IsDigit c) :
    base.denoted text = 0 ↔ text = List.replicate text.length '0' := by
  constructor
  · intro hzero
    refine eq_of_denoted_eq List.length_replicate.symm htext ?_ ?_
    · exact fun c hc => List.eq_of_mem_replicate hc ▸ base.isDigit_zero
    · rw [hzero, denoted_zeros]
  · intro hzeros
    rw [hzeros, denoted_zeros]

/-- A numeral of a base shows only zeros where it denotes zero. -/
theorem showsDigit_rendered (numeral : Rendered base) :
    ShowsDigit numeral.text ↔ numeral.value ≠ 0 := by
  have hvalue : numeral.value = 0 ↔ numeral.whole ++ numeral.fraction =
      List.replicate (numeral.whole ++ numeral.fraction).length '0' := by
    rw [Rendered.value, denotedFraction, div_eq_zero_iff,
      or_iff_left (base.radix_pow_pos _).ne', Nat.cast_eq_zero, denoted_eq_zero_iff numeral.isDigit]
  constructor
  · rintro ⟨c, hc, hnumeral, hne⟩ hzero
    rcases mem_mantissa ((List.takeWhile_prefix _).mem hc) with rfl | hmem
    · cases hnumeral
    · rw [hvalue.1 hzero] at hmem
      exact hne (List.eq_of_mem_replicate hmem)
  · intro hne
    by_contra hshows
    rw [← List.append_nil numeral.text] at hshows
    exact hne (hvalue.2 (eq_zeros_of_not_showsDigit (fun c hc => (numeral.isDigit c hc).1) hshows))

theorem cut_eq_zero_iff (base : Base) {r : Rat} (hr : 0 ≤ r) :
    base.cut r = 0 ↔ r < 1 / (base.radix : Rat) ^ fractionPlaces := by
  have hpos := base.radix_pow_pos fractionPlaces
  have hscaled : 0 ≤ r * (base.radix : Rat) ^ fractionPlaces := mul_nonneg hr hpos.le
  rw [cut, div_eq_zero_iff, or_iff_left hpos.ne', Int.cast_eq_zero, lt_div_iff₀ hpos]
  exact Int.floor_eq_zero_iff.trans (and_iff_right hscaled)

/-! ## Where a sign is left -/

/-- No numeral of a base begins with a sign. -/
theorem head?_rendered (numeral : Rendered base) : numeral.text.head? ≠ some '-' := by
  obtain ⟨c, whole, hwhole⟩ := List.exists_cons_of_ne_nil numeral.whole_ne_nil
  have hc : isNumeralChar c = true := (numeral.isDigit c (by simp [hwhole])).1
  rw [Rendered.text, hwhole]
  rintro ⟨⟩
  cases hc

/-- In decimal no number is shown as a zero with a sign. -/
theorem not_isSignedZero_write (hx : x.isFinite = true) : ¬IsSignedZero (write x) := by
  obtain ⟨s, -, hwrite, hvalue⟩ := exists_write_eq hx
  obtain ⟨c, others, htext, hc⟩ := s.exists_cons
  have hhead : s.text.head? ≠ some '-' := by
    rw [htext]
    rintro ⟨⟩
    cases hc
  rw [hwrite, isSignedZero_signed _ hhead, isNegative_shown_iff hx]
  rintro ⟨⟨-, hlarge⟩, hshows⟩
  have hzero := magnitude_value_of_not_showsDigit hshows
  rw [hvalue, magnitude_abs, shown_eq_self hx hlarge] at hzero
  exact absurd (hlarge.trans_eq hzero) snapBound_pos.not_ge

/-- In another base the sign of a number is left where the number is cut to zero and is no
noise. -/
theorem isSignedZero_ofDecimal (hbase : base ≠ .decimal) (hx : x.isFinite = true) :
    IsSignedZero (base.ofDecimal (write x)) ↔
      value x < 0 ∧ value snapBound ≤ magnitude x ∧
        magnitude x < 1 / (base.radix : Rat) ^ fractionPlaces := by
  rw [ofDecimal_write hbase hx, isSignedZero_signed _ (head?_rendered _), showsDigit_rendered,
    not_ne_iff, base.value_rendered (magnitude_nonneg _), base.cut_eq_zero_iff (magnitude_nonneg _),
    isNegative_shown_iff hx, and_assoc]
  refine and_congr_right fun _ => and_congr_right fun hlarge => ?_
  rw [shown_eq_self hx hlarge]

/-- What remains of a hexadecimal fraction is finer than noise. -/
theorem hexadecimal_place_lt_snapBound :
    1 / (hexadecimal.radix : Rat) ^ fractionPlaces < value snapBound := by
  decide +kernel

/-- A result in a base has all its numbers in that base, and a zero with a sign among them
only in binary, where a negative number is no noise but smaller than the last place. -/
theorem isSignedZero_result (base : Base) (v : Operand)
    (hv : ∀ x ∈ v.numbers, x.isFinite = true) :
    base.ofDecimal v.write = v.writeBy (fun x => base.ofDecimal (write x)) ∧
    ∀ x ∈ v.numbers, (IsSignedZero (base.ofDecimal (write x)) ↔
      base = .binary ∧ value x < 0 ∧ value snapBound ≤ magnitude x ∧
        magnitude x < 1 / 2 ^ fractionPlaces) := by
  refine ⟨base.ofDecimal_writeBy hv, fun x hmem => ?_⟩
  have hx := hv x hmem
  cases base with
  | decimal => exact iff_of_false (not_isSignedZero_write hx) nofun
  | binary => exact (isSignedZero_ofDecimal (by decide) hx).trans (and_iff_right rfl).symm
  | hexadecimal =>
    refine iff_of_false ?_ nofun
    rw [isSignedZero_ofDecimal (by decide) hx]
    rintro ⟨-, hlarge, hsmall⟩
    exact (hlarge.trans_lt hsmall).not_gt hexadecimal_place_lt_snapBound

theorem isSignedZero_result_matrix :
    binary.ofDecimal (Literal.write ⟨2, [[-1e-9, 0.5]], by decide⟩) = "[[-0,0.1]]".toList ∧
      value (-1e-9) < 0 ∧ value snapBound ≤ magnitude (-1e-9) ∧
        magnitude (-1e-9) < 1 / 2 ^ fractionPlaces := by
  have hfinite : ∀ x ∈ [(-1e-9 : Float), 0.5], x.isFinite = true :=
    List.all_iff_forall_prop.1 (by decide)
  have hsmall : binary.ofDecimal (write (-1e-9)) = "-0".toList :=
    (ofDecimal_write (by decide) (by decide)).trans (by decide +kernel)
  have hhalf : binary.ofDecimal (write 0.5) = "0.1".toList :=
    (ofDecimal_write (by decide) (by decide)).trans (by decide +kernel)
  obtain ⟨htext, hzero⟩ :=
    isSignedZero_result binary (.matrix ⟨2, [[-1e-9, 0.5]], by decide⟩) hfinite
  have hbounds := hzero (-1e-9) (List.mem_cons_self ..)
  rw [hsmall] at hbounds
  refine ⟨htext.trans ?_, (hbounds.1 (by decide)).2⟩
  simp only [Operand.writeBy, List.flatMap_cons, List.flatMap_nil, List.map_cons, List.map_nil,
    hsmall, hhalf]
  rfl

/-- The sign of a small negative number is left in binary. -/
theorem isSignedZero_binary : (-1e-4 : Float).isFinite = true ∧
    binary.ofDecimal (write (-1e-4)) = "-0".toList ∧ IsSignedZero "-0".toList := by
  refine ⟨by decide, (ofDecimal_write (by decide) (by decide)).trans ?_, by decide⟩
  decide +kernel

end Base

end MatrixCalculator
