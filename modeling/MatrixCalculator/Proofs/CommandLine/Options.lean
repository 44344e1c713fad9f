import MatrixCalculator.CommandLine
import Mathlib.Tactic.Common

/-!
# Options

The arguments that change the settings are the options, and lists of options are the
arguments of the runs that solve their input.
-/

namespace MatrixCalculator.CommandLine

/-- An option for the settings, with what its argument has to name. -/
inductive Flag where
  | base (name : Text) (base : Base) (hname : Base.ofName? name = some base)
  | locale (tag : Text)
  | maxDepth (value : Text) (maxDepth : Nat) (hvalue : readDepth? value = some maxDepth)
  | group

namespace Flag

/-- The argument that is the option. -/
def text : Flag → Text
  | .base name _ _ => "--base=".toList ++ name
  | .locale tag => "--locale=".toList ++ tag
  | .maxDepth value _ _ => "--max-depth=".toList ++ value
  | .group => "--group".toList

def set (settings : Settings) : Flag → Settings
  | .base _ named _ => { settings with base := named }
  | .locale tag => { settings with separators := .ofLocale tag }
  | .maxDepth _ depth _ => { settings with maxDepth := depth }
  | .group => { settings with groupDigits := true }

/-- The settings with several options, the last one of a kind being the one that counts. -/
def setAll (settings : Settings) (flags : List Flag) : Settings := flags.foldl set settings

end Flag

variable {settings changed : Settings} {argument : Text} {arguments : List Text}

/-- No option asks for help. -/
theorem text_ne_help (flag : Flag) :
    ¬ (flag.text = "-h".toList ∨ flag.text = "--help".toList) := by
  cases flag <;> rintro (htext | htext) <;> cases htext

theorem readOption?_text (settings : Settings) (flag : Flag) :
    readOption? settings flag.text = some (.ok (flag.set settings)) := by
  rw [readOption?, if_neg (text_ne_help flag)]
  cases flag with
  | base name base hname =>
    have hafter : Text.after? "--base=".toList (Flag.base name base hname).text = some name := rfl
    rw [hafter]
    simp only [hname, Flag.set]
  | locale tag => rfl
  | maxDepth value depth hvalue =>
    have hafter : Text.after? "--max-depth=".toList (Flag.maxDepth value depth hvalue).text =
        some value := rfl
    have hbase : Text.after? "--base=".toList (Flag.maxDepth value depth hvalue).text = none := rfl
    have hlocale : Text.after? "--locale=".toList (Flag.maxDepth value depth hvalue).text = none :=
      rfl
    rw [hbase, hlocale, hafter]
    simp only [hvalue, Flag.set]
  | group => rfl

/-- The arguments that change the settings are the options. -/
theorem readOption?_eq_ok_iff :
    readOption? settings argument = some (.ok changed) ↔
      ∃ flag : Flag, flag.text = argument ∧ flag.set settings = changed := by
  constructor
  · intro hread
    unfold readOption? at hread
    split at hread
    · cases hread
    split at hread
    · next name hafter =>
      rw [Text.after?_eq_some_iff] at hafter
      split at hread
      · next base hname =>
        cases hread
        exact ⟨.base name base hname, hafter.symm, rfl⟩
      · cases hread
    split at hread
    · next tag hafter =>
      rw [Text.after?_eq_some_iff] at hafter
      cases hread
      exact ⟨.locale tag, hafter.symm, rfl⟩
    split at hread
    · next value hafter =>
      rw [Text.after?_eq_some_iff] at hafter
      split at hread
      · next maxDepth hvalue =>
        cases hread
        exact ⟨.maxDepth value maxDepth hvalue, hafter.symm, rfl⟩
      · cases hread
    split at hread
    · next hgroup =>
      cases hread
      exact ⟨.group, hgroup.symm, rfl⟩
    split at hread <;> cases hread
  · rintro ⟨flag, rfl, rfl⟩
    exact readOption?_text settings flag

/-- The arguments that ask for a run over lines are lists of options. -/
theorem readArguments_eq_solve_nil_iff :
    readArguments settings arguments = .solve changed [] ↔
      ∃ flags : List Flag, flags.map Flag.text = arguments ∧
        Flag.setAll settings flags = changed := by
  induction arguments generalizing settings with
  | nil => simp [readArguments, Flag.setAll]
  | cons argument arguments ih =>
    constructor
    · intro hread
      unfold readArguments at hread
      split at hread
      · cases hread
      · next changed' hoption =>
        obtain ⟨flag, rfl, rfl⟩ := readOption?_eq_ok_iff.1 hoption
        obtain ⟨flags, rfl, rfl⟩ := ih.1 hread
        exact ⟨flag :: flags, rfl, rfl⟩
      · split at hread <;> cases hread
    · rintro ⟨flags, hflags, rfl⟩
      obtain ⟨flag, flags, rfl, rfl, rfl⟩ := List.map_eq_cons_iff.1 hflags
      rw [readArguments, readOption?_text]
      exact ih.2 ⟨flags, rfl, rfl⟩

end MatrixCalculator.CommandLine
