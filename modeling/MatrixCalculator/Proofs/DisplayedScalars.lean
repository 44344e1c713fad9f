import MatrixCalculator.Proofs.Base.Grouping
import MatrixCalculator.Proofs.Base.Output
import MatrixCalculator.Proofs.Display
import MatrixCalculator.Proofs.Expression.ValueText
import MatrixCalculator.Proofs.Routing
import MatrixCalculator.Proofs.Scalar.FlatChain

/-!
# Displayed scalars

A number is displayed with the marks of its groups and with the characters of a locale.
In the decimal base a displayed number can be typed in again wherever entering drops the
marks, which it does in the locales with a comma for decimals.  In every base the marks
are layout: with and without groups the same expressions have a value, and the values
differ by the marks alone.
-/

namespace MatrixCalculator

open Display Expression Numeral Outcome Text

namespace Settings

variable {settings : Settings} {x : Float} {text : Text} {c : Char}

/-! ## Reading back -/

/-- A text with the marks of decimal groups is the text as soon as they are dropped. -/
theorem filter_arranged (hbase : settings.base = .decimal) (hcomma : ',' ∉ text) :
    (settings.arranged text).filter (· != ',') = text := by
  rw [arranged, hbase]
  split
  · exact Base.filter_groupNumerals hcomma
  · exact Base.filter_mark_eq_self hcomma

theorem mem_arranged (hbase : settings.base = .decimal) (hcomma : ',' ∉ text)
    (hc : c ∈ settings.arranged text) : c = ',' ∧ settings.groupDigits = true ∨ c ∈ text := by
  rw [arranged, hbase] at hc
  split at hc
  · next hgroups => exact (Base.eq_or_mem_of_mem_groupNumerals hcomma hc).imp (⟨·, hgroups⟩) id
  · exact .inr hc

/-- A displayed number is entered as it has been written, if no commas are displayed for
the marks of groups. -/
theorem enter_displayScalar (tag : Text) (hbase : settings.base = .decimal)
    (hseparators : settings.separators = .ofLocale tag)
    (hgroups : settings.groupDigits = true → settings.separators.decimalPoint = ',') :
    enter settings.separators (settings.displayScalar (write x)) = write x := by
  have hcomma : ',' ∉ write x := not_mem_number x (by decide)
  have hchars : ∀ c ∈ settings.arranged (write x),
      isLayout settings.separators (shownChar settings.separators c) = !(c != ',') ∧
        ((c != ',') = true →
          enterChar settings.separators (shownChar settings.separators c) = id c) := by
    intro c hc
    have hmem := mem_arranged hbase hcomma hc
    rcases Separators.ofLocale_cases tag with hlocale | hlocale
    · rw [hseparators, hlocale] at hgroups ⊢
      have halphabet : ∀ c ∈ numberAlphabet, isLayout .canonical (shownChar .canonical c) =
          !(c != ',') ∧ enterChar .canonical (shownChar .canonical c) = id c :=
        List.all_iff_forall_prop.1 (by decide)
      rcases hmem with ⟨-, hgrouped⟩ | hmem
      · exact absurd (hgroups hgrouped) (by decide)
      · have hknown := halphabet c (by_contra fun hne => not_mem_number x hne hmem)
        exact ⟨hknown.1, fun _ => hknown.2⟩
    · rw [hseparators, hlocale]
      have halphabet : ∀ c ∈ ',' :: numberAlphabet,
          isLayout (.ofDecimalPoint ',') (shownChar (.ofDecimalPoint ',') c) = !(c != ',') ∧
            ((c != ',') = true →
              enterChar (.ofDecimalPoint ',') (shownChar (.ofDecimalPoint ',') c) = id c) :=
        List.all_iff_forall_prop.1 (by decide)
      refine halphabet c (List.mem_cons.2 (hmem.imp And.left fun hmem => ?_))
      exact by_contra fun hne => not_mem_number x hne hmem
  rw [displayScalar_eq_map, enter_map (fun c hc => (hchars c hc).1) fun c hc => (hchars c hc).2,
    filter_arranged hbase hcomma, List.map_id]

/-- What is displayed of a number is the number again: typed in, it has a value that is
displayed in the same way, with the marks of groups or without them. -/
theorem solve_displayScalar (tag : Text) (hbase : settings.base = .decimal)
    (hseparators : settings.separators = .ofLocale tag)
    (hgroups : settings.groupDigits = true → settings.separators.decimalPoint = ',')
    (hx : x.isNaN = false) :
    settings.solve (settings.displayScalar (write x)) = .ok (settings.displayScalar (write x)) := by
  have hentered := enter_displayScalar (x := x) tag hbase hseparators hgroups
  have hscalar : settings.containsMatrices (settings.displayScalar (write x)) = false := by
    rw [← Bool.not_eq_true, containsMatrices, Literal.occursIn_iff]
    intro hliteral
    have hbracket := bracket_mem_enter tag hliteral.bracket_mem
    rw [← hseparators, hentered] at hbracket
    exact not_mem_number x (by decide) hbracket
  rw [solve_of_decimal hbase, hscalar, if_neg (by decide), solveScalar_eq, hentered, Scalar.solve,
    Scalar.evaluate_write hx, map_ok, map_ok, write_shown]

theorem solve_displayScalar_comma :
    let settings : Settings := { separators := .ofLocale "de_DE".toList, groupDigits := true }
    settings.displayScalar (write (-1234567.5)) = "\u22121.234.567,5".toList ∧
      settings.solve "\u22121.234.567,5".toList = .ok "\u22121.234.567,5".toList := by
  intro settings
  have hdisplay : settings.displayScalar (write (-1234567.5)) = "\u22121.234.567,5".toList := by
    decide +kernel
  refine ⟨hdisplay, ?_⟩
  rw [← hdisplay]
  exact solve_displayScalar "de_DE".toList rfl rfl (fun _ => by decide) (by decide)

end Settings

/-! ## Marks as layout -/

/-- Whether a character cannot be taken for one of a displayed number: it is no digit, no
letter, no sign and not the decimal point. -/
def Separators.MayBeMark (separators : Separators) (mark : Char) : Prop :=
  mark.isDigit = false ∧ mark.isAlpha = false ∧ mark ∉ ['+', '-', Symbol.minus] ∧
    mark ≠ separators.decimalPoint

instance (separators : Separators) (mark : Char) : Decidable (separators.MayBeMark mark) :=
  inferInstanceAs (Decidable (_ ∧ _))

namespace Settings

variable {settings : Settings} {x : Float} {text : Text} {mark c : Char}

def withGroups (settings : Settings) (groups : Bool) : Settings :=
  { settings with groupDigits := groups }

theorem displayScalar_with (settings : Settings) (result : Text) :
    (settings.withGroups true).displayScalar result =
      (settings.base.group .canonical (settings.base.ofDecimal result)).map
        (shownChar settings.separators) :=
  displayScalar_eq_map _ _

theorem displayScalar_without (settings : Settings) (result : Text) :
    (settings.withGroups false).displayScalar result =
      (settings.base.ofDecimal result).map (shownChar settings.separators) :=
  displayScalar_eq_map _ _

def IsScalar (settings : Settings) (text : Text) : Prop :=
  ∀ decimal, settings.base.toDecimal settings.separators.decimalPoint text = .ok decimal →
    settings.containsMatrices decimal = false

theorem isScalar_of_toDecimal (decimal : Text)
    (hdecimal : settings.base.toDecimal settings.separators.decimalPoint text = .ok decimal)
    (hshape : settings.containsMatrices decimal = false) : settings.IsScalar text := by
  intro typed htyped
  rw [hdecimal] at htyped
  cases htyped
  exact hshape

/-- The mark that is displayed between groups. -/
def displayedMark (settings : Settings) : Char :=
  shownChar settings.separators (settings.base.groupMark .canonical)

theorem displayedMark_of_ne (hbase : settings.base ≠ .decimal) : settings.displayedMark = ' ' := by
  rw [displayedMark]
  cases h : settings.base with
  | decimal => exact absurd h hbase
  | binary => rfl
  | hexadecimal => rfl

theorem displayedMark_of_decimal (hbase : settings.base = .decimal)
    (hmark : settings.separators.MayBeMark settings.separators.grouping) :
    settings.displayedMark = settings.separators.grouping := by
  have hminus : settings.separators.grouping ≠ '-' := fun heq => hmark.2.2.1 (by simp [heq])
  rw [displayedMark, hbase]
  exact if_neg hminus

/-- The characters of a number in a base. -/
theorem mem_rendered (hc : c ∈ settings.base.ofDecimal (write x)) :
    c.isDigit = true ∨ c.isAlpha = true ∨ c = '.' ∨ c = '-' := by
  have halphabet : ∀ c ∈ numberAlphabet, c.isDigit = true ∨ c.isAlpha = true ∨ c = '.' ∨ c = '-' :=
    List.all_iff_forall_prop.1 (by decide)
  rcases Base.mem_ofDecimal hc with hpoint | hdigit | hmem
  · exact .inr (.inr (.inl hpoint))
  · have hsign : c.isDigit = true ∨ c.isAlpha = true :=
      Base.of_isNumeralChar (fun c => c.isDigit = true ∨ c.isAlpha = true)
        (List.all_iff_forall_prop.1 (by decide)) hdigit.1
    exact hsign.imp id .inl
  · exact halphabet c (by_contra fun hne => not_mem_number x hne hmem)

/-- Neither a comma nor a blank is part of a number. -/
theorem groupMark_not_mem_rendered :
    settings.base.groupMark .canonical ∉ settings.base.ofDecimal (write x) := by
  intro hmem
  have hchar := mem_rendered hmem
  cases hbase : settings.base with
  | binary => exact absurd (hbase ▸ hchar) (by decide)
  | decimal => exact absurd (hbase ▸ hchar) (by decide)
  | hexadecimal => exact absurd (hbase ▸ hchar) (by decide)

/-- No character of a displayed number is a mark. -/
theorem shownChar_ne_mark (hmark : settings.separators.MayBeMark mark)
    (hc : c ∈ settings.base.ofDecimal (write x)) : shownChar settings.separators c ≠ mark := by
  obtain ⟨hdigit, halpha, hsigns, hpoint⟩ := hmark
  have hminus : Symbol.minus ≠ mark := by
    rintro rfl
    exact hsigns (by decide)
  have hne : ∀ p : Char → Bool, p mark = false → (∀ d ∈ ['.', ',', '-'], p d = false) →
      p c = true → shownChar settings.separators c ≠ mark := by
    intro p hp hothers hpc
    have hother : ∀ d ∈ ['.', ',', '-'], c ≠ d := by
      rintro d hd rfl
      rw [hothers c hd] at hpc
      cases hpc
    rw [shownChar_of_ne (hother _ (by simp)) (hother _ (by simp)) (hother _ (by simp))]
    rintro rfl
    rw [hp] at hpc
    cases hpc
  rcases mem_rendered hc with hc | hc | rfl | rfl
  · exact hne Char.isDigit hdigit (List.all_iff_forall_prop.1 (by decide)) hc
  · exact hne Char.isAlpha halpha (List.all_iff_forall_prop.1 (by decide)) hc
  · change (if settings.separators.decimalPoint = '-' then Symbol.minus
      else settings.separators.decimalPoint) ≠ mark
    split
    · exact hminus
    · exact hpoint.symm
  · exact hminus

/-- Without the marks that are displayed a number in groups is the number without groups. -/
theorem filter_displayedMark (hmark : settings.separators.MayBeMark settings.displayedMark) :
    ((settings.withGroups true).displayScalar (write x)).filter (· != settings.displayedMark) =
      (settings.withGroups false).displayScalar (write x) := by
  have hmarks : ∀ c ∈ settings.base.group .canonical (settings.base.ofDecimal (write x)),
      ((· != settings.displayedMark) ∘ shownChar settings.separators) c =
        (c != settings.base.groupMark .canonical) := by
    intro c hc
    rcases Base.eq_or_mem_of_mem_groupNumerals groupMark_not_mem_rendered hc with rfl | hc
    · simp [displayedMark]
    · have hne : c ≠ settings.base.groupMark .canonical := by
        rintro rfl
        exact groupMark_not_mem_rendered hc
      rw [bne_iff_ne.2 hne]
      exact bne_iff_ne.2 (shownChar_ne_mark hmark hc)
  rw [displayScalar_with, displayScalar_without, List.filter_map, List.filter_congr hmarks,
    Base.group, Base.filter_groupNumerals groupMark_not_mem_rendered]

/-- A mark that is not the one displayed is not found in a displayed number. -/
theorem filter_of_displayedMark_ne (hmark : settings.separators.MayBeMark mark)
    (hne : settings.displayedMark ≠ mark) :
    ((settings.withGroups true).displayScalar (write x)).filter (· != mark) =
      (settings.withGroups true).displayScalar (write x) := by
  refine Base.filter_mark_eq_self fun hmem => ?_
  rw [displayScalar_with] at hmem
  obtain ⟨c, hc, hshown⟩ := List.mem_map.1 hmem
  rcases Base.eq_or_mem_of_mem_groupNumerals groupMark_not_mem_rendered hc with rfl | hc
  · exact hne hshown
  · exact shownChar_ne_mark hmark hc hshown

/-- The number that is displayed does not depend on the groups. -/
theorem exists_solve_withGroups (hscalar : settings.IsScalar text) :
    ∃ outcome : Except Fault Float, ∀ groups, (settings.withGroups groups).solve text =
      (fun x => (settings.withGroups groups).displayScalar (write x)) <$> outcome := by
  cases htyped : settings.base.toDecimal settings.separators.decimalPoint text with
  | error cause =>
    refine ⟨.error cause, fun groups => ?_⟩
    change settings.base.toDecimal settings.separators.decimalPoint text >>= _ = _
    rw [htyped]
    rfl
  | ok decimal =>
    refine ⟨Scalar.evaluate settings.maxDepth (enter settings.separators decimal), fun groups => ?_⟩
    have hrouted : (settings.withGroups groups).containsMatrices decimal = false :=
      hscalar decimal htyped
    change settings.base.toDecimal settings.separators.decimalPoint text >>= _ = _
    rw [htyped, ok_bind, hrouted, if_neg Bool.false_ne_true, solveScalar_eq, Scalar.solve,
      Functor.map_map]
    rfl

/-- Groups never decide whether a scalar expression has a value.  Without the configured
marks its value in groups is the value without groups in the decimal base.  In the other
bases blanks are displayed between groups, so there this holds where a blank is
configured or the value has a single group. -/
theorem solve_withGroups
    (hmark : settings.separators.MayBeMark (settings.base.groupMark settings.separators))
    (hscalar : settings.IsScalar text) :
    (∀ cause, (settings.withGroups true).solve text = .error cause ↔
      (settings.withGroups false).solve text = .error cause) ∧
    ∀ displayed, (settings.withGroups true).solve text = .ok displayed →
      ∃ plain, (settings.withGroups false).solve text = .ok plain ∧
        (displayed.filter (· != settings.base.groupMark settings.separators) = plain ↔
          settings.base = .decimal ∨ settings.base.groupMark settings.separators = ' ' ∨
            displayed = plain) ∧
        (settings.base ≠ .decimal → settings.separators.decimalPoint ≠ ' ' →
          displayed.filter (· != ' ') = plain) := by
  obtain ⟨outcome, houtcome⟩ := exists_solve_withGroups hscalar
  refine ⟨fun cause => by rw [houtcome, houtcome, map_eq_error_iff, map_eq_error_iff], ?_⟩
  intro displayed hdisplayed
  rw [houtcome] at hdisplayed
  obtain ⟨x, hx, rfl⟩ := map_eq_ok_iff.1 hdisplayed
  refine ⟨_, by rw [houtcome, hx, map_ok], ?_, fun hbase hpoint => ?_⟩
  · by_cases hbase : settings.base = .decimal
    · rw [hbase] at hmark
      have hshown := displayedMark_of_decimal hbase hmark
      rw [hbase]
      refine iff_of_true ?_ (.inl rfl)
      rw [Base.groupMark, ← hshown]
      exact filter_displayedMark (hshown ▸ hmark)
    · have hshown := displayedMark_of_ne hbase
      by_cases hblank : settings.base.groupMark settings.separators = ' '
      · refine iff_of_true ?_ (.inr (.inl hblank))
        rw [hblank, ← hshown] at hmark ⊢
        exact filter_displayedMark hmark
      · rw [filter_of_displayedMark_ne hmark (fun heq => hblank (heq ▸ hshown))]
        simp only [hbase, hblank, false_or]
  · have hshown := displayedMark_of_ne hbase
    rw [← hshown]
    refine filter_displayedMark ?_
    rw [hshown]
    exact ⟨by decide, by decide, by decide, hpoint.symm⟩

theorem solve_withGroups_hexadecimal :
    let settings : Settings := { base := .hexadecimal, separators := .ofLocale "de_DE".toList }
    settings.separators.MayBeMark ' ' ∧ settings.IsScalar "FFFF+1,8".toList ∧
      (settings.withGroups true).solve "FFFF+1,8".toList = .ok "1 00 00,8".toList ∧
      (settings.withGroups false).solve "FFFF+1,8".toList = .ok "10000,8".toList := by
  intro settings
  have hmark : settings.separators.MayBeMark (settings.base.groupMark settings.separators) := by
    decide
  have hscalar : settings.IsScalar "FFFF+1,8".toList :=
    isScalar_of_toDecimal "65535+1,5".toList (by decide +kernel) (by decide)
  have hgroups : (settings.withGroups true).solve "FFFF+1,8".toList = .ok "1 00 00,8".toList := by
    decide +kernel
  obtain ⟨plain, hplain, hiff, -⟩ := (solve_withGroups hmark hscalar).2 _ hgroups
  refine ⟨hmark, hscalar, hgroups, ?_⟩
  rw [hplain, ← hiff.2 (.inr (.inl rfl))]
  decide

/-- Between binary groups there are blanks, also where another mark is configured. -/
theorem solve_withGroups_binary :
    let settings : Settings := { base := .binary, separators := ⟨'.', ',', '_', '_', ','⟩ }
    settings.base.groupMark settings.separators = '_' ∧ settings.separators.MayBeMark '_' ∧
      settings.IsScalar "1111111".toList ∧
      (settings.withGroups true).solve "1111111".toList = .ok "111 1111".toList ∧
      (settings.withGroups false).solve "1111111".toList = .ok "1111111".toList ∧
      "111 1111".toList.filter (· != '_') ≠ "1111111".toList := by
  intro settings
  have hscalar : settings.IsScalar "1111111".toList :=
    isScalar_of_toDecimal "127".toList (by decide +kernel) (by decide)
  refine ⟨rfl, by decide, hscalar, ?_⟩
  decide +kernel

end Settings

end MatrixCalculator
