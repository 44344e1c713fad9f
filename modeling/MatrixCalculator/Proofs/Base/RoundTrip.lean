import MatrixCalculator.Proofs.Base.Conversion
import MatrixCalculator.Proofs.Base.Loops
import MatrixCalculator.Proofs.Numeral.Extent

/-!
# Reading what is written in a base

A finite number that is written in a base and read back from it is the number without
what follows the last place of the fraction.  Nothing else is lost: all steps in both
directions are exact, and the sign stays in front.
-/

namespace MatrixCalculator.Base

open Numeral Scalar

variable {base : Base} {x : Float}

/-! ## Writing -/

/-- A numeral is replaced as a whole, and what follows on its own. -/
theorem renderNumerals_append (base : Base) {s : Spelling} {rest : Text}
    (hmark : s.HasSmallMark) (hrest : EndsNumeral rest) :
    base.renderNumerals (s.text ++ rest) =
      base.render (magnitude s.value) ++ base.renderNumerals rest := by
  have hextent := extent_append hmark hrest
  obtain ⟨c, others, htext, -⟩ := s.exists_cons
  have hread := s.readDecimal?_text
  rw [htext] at hread
  rw [htext, List.cons_append] at hextent ⊢
  have hlength : extent (c :: (others ++ rest)) ≠ 0 := by
    rw [hextent]
    exact Nat.succ_ne_zero _
  have htake : (c :: (others ++ rest)).take (extent (c :: (others ++ rest))) = c :: others := by
    rw [hextent, ← List.cons_append, List.take_left]
  have hdrop : (others ++ rest).drop (extent (c :: (others ++ rest)) - 1) = rest := by
    rw [hextent, List.length_cons, Nat.add_sub_cancel, List.drop_left]
  rw [renderNumerals]
  simp only [if_neg hlength, htake, hread, hdrop]
  rfl

/-- A character that begins no numeral stays as it is. -/
theorem renderNumerals_cons (base : Base) {c : Char} (hc : c.isDigit = false) (text : Text) :
    base.renderNumerals (c :: text) = c :: base.renderNumerals text := by
  rw [renderNumerals]
  exact if_pos (extent_eq_zero_iff.2 (endsDigits_cons hc))

/-- A number inside a longer text: its sign and the number that is shown, and what follows. -/
theorem renderNumerals_write (base : Base) (hx : x.isFinite = true) {rest : Text}
    (hrest : EndsNumeral rest) :
    base.renderNumerals (write x ++ rest) =
      signed (shown x) (base.rendered (magnitude (shown x))).text ++
        base.renderNumerals rest := by
  obtain ⟨s, hmark, hwrite, hvalue⟩ := exists_write_eq hx
  have hnumeral := base.renderNumerals_append hmark hrest
  rw [hvalue, magnitude_abs, ← text_rendered] at hnumeral
  rw [hwrite, signed, signed]
  split
  · rw [List.cons_append, List.cons_append, renderNumerals_cons base (by decide), hnumeral]
  · exact hnumeral

/-- What is written of a finite number in a base: the sign and the number that is shown. -/
theorem ofDecimal_write (hbase : base ≠ .decimal) (hx : x.isFinite = true) :
    base.ofDecimal (write x) =
      signed (shown x) (base.rendered (magnitude (shown x))).text := by
  have hwrite := base.renderNumerals_write hx endsNumeral_nil
  rw [List.append_nil, renderNumerals, List.append_nil] at hwrite
  rw [ofDecimal, if_neg hbase, hwrite]

/-! ## Reading back -/

/-- A sign in front of a positional text is read as the sign of the number. -/
theorem exists_read?_signed {y : Float} {r : Rat} (hy : IsExact y r) (x : Float) :
    ∃ z, read? (signed x (writePositional y)) = some z ∧ isNegative z = isNegative x ∧
      magnitude z = r := by
  obtain ⟨s, htext, hvalue⟩ := exists_writePositional hy.isFinite hy.isNegative
  refine ⟨SignedSpelling.value ⟨isNegative x, s⟩, ?_, SignedSpelling.isNegative_value _, ?_⟩
  · rw [← htext]
    exact SignedSpelling.read?_text ⟨isNegative x, s⟩
  · rw [SignedSpelling.magnitude_value, hvalue, hy.magnitude]

/-- The loops end for every finite number. -/
theorem loopsWrite_abs (hbase : base ≠ .decimal) (hx : x.isFinite = true) {text : Text} :
    base.LoopsWrite x.abs text ↔ text = base.render (magnitude x) :=
  loopsWrite_iff hbase ⟨isFinite_abs hx, isNegative_abs x, magnitude_abs x⟩

/-- A finite number that is written in a base and read back is the number that is shown,
with its sign and with its fraction cut behind the last place.  The numeral of the base
stands in the place of the decimal one, behind the same sign; it is what the loops over
doubles write, and these end for every finite number. -/
theorem toDecimal_ofDecimal_write (hbase : base ≠ .decimal) (hx : x.isFinite = true) :
    (∃ text, base.LoopsWrite x.abs text) ∧
    ∃ (v : Float) (s : Spelling) (numeral : Rendered base) (decimal : Text) (z : Float),
      read? (write x) = some v ∧ write x = signed v s.text ∧
      base.ofDecimal (write x) = signed v numeral.text ∧ base.LoopsWrite v.abs numeral.text ∧
      base.toDecimal '.' (base.ofDecimal (write x)) = .ok decimal ∧
      read? decimal = some z ∧ isNegative z = isNegative v ∧
      magnitude z = base.cut (magnitude v) := by
  obtain ⟨s, -, hwrite, -⟩ := exists_write_eq hx
  have hshown := isFinite_shown hx
  have hofDecimal := ofDecimal_write hbase hx
  have hvalue := base.value_rendered (magnitude_nonneg (shown x))
  have hrepresentable : Representable (base.rendered (magnitude (shown x))).value := by
    rw [hvalue]
    exact representable_cut hbase (representable_magnitude hshown) fractionPlaces
  obtain ⟨z, hz, hsign, hmagnitude⟩ := exists_read?_signed hrepresentable.isExact (shown x)
  refine ⟨⟨_, (loopsWrite_abs hbase hx).2 rfl⟩, shown x, s, base.rendered (magnitude (shown x)),
    signed (shown x) (writePositional (nearest (base.rendered (magnitude (shown x))).value)), z,
    read?_write x, hwrite, hofDecimal, (loopsWrite_abs hbase hshown).2 rfl, ?_, hz, hsign,
    hmagnitude.trans hvalue⟩
  rw [hofDecimal]
  exact toDecimal_signed hbase _ hrepresentable (shown x)

theorem toDecimal_ofDecimal_write_tenth :
    ofDecimal .hexadecimal (write (-0.1)) = "-0.199999999999".toList ∧
      ∃ decimal z, toDecimal .hexadecimal '.' "-0.199999999999".toList = .ok decimal ∧
        read? decimal = some z ∧ isNegative z = true ∧
        magnitude z = 28147497671065 / 281474976710656 := by
  have hwrite : ofDecimal .hexadecimal (write (-0.1)) = "-0.199999999999".toList := by
    decide +kernel
  have hread : read? (write (-0.1)) = some (-0.1) := by decide +kernel
  obtain ⟨-, v, -, -, decimal, z, hv, -, -, -, hdecimal, hz, hsign, hmagnitude⟩ :=
    @toDecimal_ofDecimal_write .hexadecimal (-0.1) (by decide) (by decide)
  rw [hread] at hv
  cases hv
  rw [hwrite] at hdecimal
  refine ⟨hwrite, decimal, z, hdecimal, hz, hsign, hmagnitude.trans ?_⟩
  decide +kernel

end MatrixCalculator.Base
