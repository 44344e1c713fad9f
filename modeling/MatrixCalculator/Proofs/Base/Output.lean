import MatrixCalculator.Proofs.Base.Digits

/-!
# What is written in a base

A numeral of a result is replaced by digits of the base and a point, and all other
characters stay.
-/

namespace MatrixCalculator.Base

open Numeral

variable {base : Base} {c : Char}

/-- The whole part and the fraction of what is written of a number. -/
theorem render_eq (base : Base) (r : Rat) : base.render r =
    base.digitsOf r.floor.toNat ++ withPoint (base.fractionDigits (r - r.floor)) := rfl

theorem mem_withPoint {fraction : Text} (hc : c ∈ withPoint fraction) : c = '.' ∨ c ∈ fraction := by
  rw [withPoint] at hc
  split at hc
  · cases hc
  · exact List.mem_cons.1 hc

theorem mem_render {r : Rat} (hc : c ∈ base.render r) : c = '.' ∨ base.IsDigit c := by
  rw [render_eq, List.mem_append] at hc
  rcases hc with hc | hc
  · exact .inr (isDigit_of_mem_digits hc)
  · exact (mem_withPoint hc).imp id isDigit_of_mem_fractionDigits

/-- The characters of a result in a base. -/
theorem mem_renderNumerals {text : Text} (hc : c ∈ base.renderNumerals text) :
    c = '.' ∨ base.IsDigit c ∨ c ∈ text := by
  induction text using renderNumerals.induct with
  | case1 =>
    rw [renderNumerals] at hc
    cases hc
  | case2 d text length hlength ih =>
    rw [renderNumerals] at hc
    rw [if_pos hlength, List.mem_cons] at hc
    rcases hc with rfl | hc
    · simp
    · exact (ih hc).imp id (.imp id (List.mem_cons_of_mem d))
  | case3 d text length hlength numeral hread ih =>
    rw [renderNumerals] at hc
    rw [if_neg hlength, hread] at hc
    rcases List.mem_append.1 hc with hc | hc
    · exact (mem_render hc).imp id .inl
    · exact (ih hc).imp id (.imp id fun hmem => List.mem_cons_of_mem d (List.mem_of_mem_drop hmem))
  | case4 d text length hlength hread ih =>
    rw [renderNumerals] at hc
    rw [if_neg hlength, hread, List.mem_cons] at hc
    rcases hc with rfl | hc
    · simp
    · exact (ih hc).imp id (.imp id (List.mem_cons_of_mem d))

theorem mem_ofDecimal {text : Text} (hc : c ∈ base.ofDecimal text) :
    c = '.' ∨ base.IsDigit c ∨ c ∈ text := by
  rw [ofDecimal] at hc
  split at hc
  · exact .inr (.inr hc)
  · exact mem_renderNumerals hc

/-! ## Numerals as they are written -/

/-- A numeral of a base as it is written: digits of the base, no zeros that mean nothing and
no more fraction digits than there are places. -/
structure Rendered (base : Base) where
  whole : Text
  fraction : Text
  isDigit : ∀ c ∈ whole ++ fraction, base.IsDigit c
  whole_ne_nil : whole ≠ []
  head_whole : whole.head? = some '0' → whole = ['0']
  last_fraction : fraction.getLast? ≠ some '0'
  length_fraction : fraction.length ≤ fractionPlaces

namespace Rendered

/-- The text of a numeral, which has a point only in front of a fraction. -/
def text (numeral : Rendered base) : Text := numeral.whole ++ withPoint numeral.fraction

def value (numeral : Rendered base) : Rat :=
  base.denotedFraction numeral.whole numeral.fraction

end Rendered

/-- What is written of a number, taken apart. -/
def rendered (base : Base) (r : Rat) : Rendered base where
  whole := base.digitsOf r.floor.toNat
  fraction := base.fractionDigits (r - r.floor)
  isDigit := List.forall_mem_append.2
    ⟨fun _ => isDigit_of_mem_digits, fun _ => isDigit_of_mem_fractionDigits⟩
  whole_ne_nil := digitsOf_ne_nil base _
  head_whole := digitsOf_of_head?
  last_fraction := getLast?_trimZeros _
  length_fraction := by
    obtain ⟨count, hlength, -⟩ :=
      base.exists_fractionDigits (sub_floor_nonneg r) (sub_floor_lt_one r)
    omega

theorem text_rendered (base : Base) (r : Rat) : (base.rendered r).text = base.render r := rfl

theorem value_rendered (base : Base) {r : Rat} (hr : 0 ≤ r) :
    (base.rendered r).value = base.cut r :=
  denotedFraction_render hr

end MatrixCalculator.Base
