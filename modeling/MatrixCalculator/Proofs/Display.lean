import MatrixCalculator.Calculator
import Mathlib.Tactic

/-!
# Shown characters

A scalar result is shown character by character, so what is shown of a text that is put
together from parts is put together from what is shown of the parts.  Entering goes the
other way, also character by character, after layout has been dropped.
-/

namespace MatrixCalculator

namespace Display

theorem enter_append (separators : Separators) (left right : Text) :
    enter separators (left ++ right) = enter separators left ++ enter separators right := by
  simp [enter]

/-- Entering makes no characters but these. -/
theorem mem_enter {separators : Separators} {text : Text} {c : Char}
    (hmem : c ∈ enter separators text) :
    c ∈ text ∨ c ∈ ['-', Symbol.times, Symbol.divide, '.'] := by
  obtain ⟨d, hd, rfl⟩ := List.mem_map.1 hmem
  have hkept : d ∈ text := (List.mem_filter.1 hd).1
  rw [enterChar]
  repeat' split
  all_goals simp [hkept]

/-- Entering a text that is shown character by character. -/
theorem enter_map {separators : Separators} {text : Text} {f g : Char → Char}
    {p : Char → Bool} (hlayout : ∀ c ∈ text, isLayout separators (f c) = !p c)
    (hchar : ∀ c ∈ text, p c = true → enterChar separators (f c) = g c) :
    enter separators (text.map f) = (text.filter p).map g := by
  have hkept : text.filter ((fun c => !isLayout separators c) ∘ f) = text.filter p :=
    List.filter_congr fun c hc => by simp [hlayout c hc]
  rw [enter, List.filter_map, List.map_map, hkept]
  refine List.map_congr_left fun c hc => ?_
  obtain ⟨hmem, hp⟩ := List.mem_filter.1 hc
  exact hchar c hmem hp

/-- A canonical character with the characters of a locale. -/
def localChar (point comma c : Char) : Char :=
  if c = '.' then point else if c = ',' then comma else c

/-- A character of a canonical scalar result as it is shown. -/
def shownChar (separators : Separators) (c : Char) : Char :=
  let shown := localChar separators.decimalPoint separators.grouping c
  if shown = '-' then Symbol.minus else shown

theorem localChar_canonical (c : Char) : localChar '.' ',' c = c := by
  rw [localChar]
  split
  · next hpoint => exact hpoint.symm
  · split
    · next hcomma => exact hcomma.symm
    · rfl

theorem shownChar_of_ne {separators : Separators} {c : Char} (hpoint : c ≠ '.') (hcomma : c ≠ ',')
    (hminus : c ≠ '-') : shownChar separators c = c := by
  simp only [shownChar, localChar, if_neg hpoint, if_neg hcomma, if_neg hminus]

theorem present_localize (separators : Separators) (text : Text) :
    present (localize separators separators.grouping text) = text.map (shownChar separators) := by
  rw [present, localize]
  split
  · next hcanonical =>
    obtain rfl := of_decide_eq_true hcanonical
    refine List.map_congr_left fun c _ => ?_
    simp only [shownChar, Separators.canonical, localChar_canonical]
  · exact List.map_map

end Display

namespace Settings

/-- A canonical scalar result in the configured base, in groups where they are asked
for. -/
def arranged (settings : Settings) (result : Text) : Text :=
  if settings.groupDigits then settings.base.group .canonical (settings.base.ofDecimal result)
  else settings.base.ofDecimal result

def displayScalar (settings : Settings) (result : Text) : Text :=
  Display.present (Display.localize settings.separators settings.separators.grouping
    (settings.arranged result))

theorem displayScalar_eq_map (settings : Settings) (result : Text) :
    settings.displayScalar result =
      (settings.arranged result).map (Display.shownChar settings.separators) :=
  Display.present_localize _ _

theorem solveScalar_eq (settings : Settings) (text : Text) :
    settings.solveScalar text =
      settings.displayScalar <$>
        Scalar.solve settings.maxDepth (Display.enter settings.separators text) := by
  rw [solveScalar, map_eq_pure_bind]
  rfl

end Settings

end MatrixCalculator
