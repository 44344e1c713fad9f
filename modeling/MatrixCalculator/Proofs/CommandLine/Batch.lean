import MatrixCalculator.Proofs.CommandLine.Lines
import MatrixCalculator.Proofs.CommandLine.Options
import MatrixCalculator.Proofs.Outcome

/-!
# Runs over lines

Without an expression a run solves the lines of its input, each one as if there were no
other.  Its output has the results in the order of the lines and its errors have the
faults.  A line that is no text ends it.
-/

namespace MatrixCalculator.CommandLine

/-! ## The loop over the lines -/

theorem followedBy_nothing (outcome : Outcome) : outcome.followedBy .nothing = outcome := by
  simp [Outcome.followedBy, Outcome.nothing]

/-- The texts in front of the first line that is none, but for the blank ones. -/
def expressions (lines : List Line) : List Text :=
  ((lines.takeWhile fun line => line.text?.isSome).filterMap Line.text?).filter fun text =>
    !text.all Text.isBlank

def results (settings : Settings) (texts : List Text) : List Text :=
  texts.filterMap fun text => (settings.solve text).toOption

def fault? {α : Type} : Except Fault α → Option Fault
  | .ok _ => none
  | .error fault => some fault

def faults (settings : Settings) (texts : List Text) : List Fault :=
  texts.filterMap fun text => fault? (settings.solve text)

section Outcomes

variable {settings : Settings} {text result : Text} {fault : Fault}

theorem results_cons_ok (hsolve : settings.solve text = .ok result) (texts : List Text) :
    results settings (text :: texts) = result :: results settings texts := by
  simp [results, hsolve]

theorem results_cons_error (hsolve : settings.solve text = .error fault) (texts : List Text) :
    results settings (text :: texts) = results settings texts := by
  simp [results, hsolve]

theorem faults_cons_ok (hsolve : settings.solve text = .ok result) (texts : List Text) :
    faults settings (text :: texts) = faults settings texts := by
  simp [faults, fault?, hsolve]

theorem faults_cons_error (hsolve : settings.solve text = .error fault) (texts : List Text) :
    faults settings (text :: texts) = fault :: faults settings texts := by
  simp [faults, fault?, hsolve]

end Outcomes

def areTexts (lines : List Line) : Bool := lines.all fun line => line.text?.isSome

/-- What is written of a line that is no text. -/
def readErrors (lines : List Line) : Text :=
  if areTexts lines then []
  else "error: failed to read input: stream did not contain valid UTF-8\n".toList

section Steps

variable {first : Line} {text : Text}

theorem areTexts_of_none (htext : first.text? = none) (lines : List Line) :
    areTexts (first :: lines) = false := by
  rw [areTexts, List.all_cons, htext]
  rfl

theorem areTexts_of_some (htext : first.text? = some text) (lines : List Line) :
    areTexts (first :: lines) = areTexts lines := by
  rw [areTexts, List.all_cons, htext]
  rfl

theorem expressions_of_none (htext : first.text? = none) (lines : List Line) :
    expressions (first :: lines) = [] := by
  simp [expressions, htext]

theorem expressions_of_blank (htext : first.text? = some text)
    (hblank : text.all Text.isBlank = true) (lines : List Line) :
    expressions (first :: lines) = expressions lines := by
  simp [expressions, htext, hblank]

theorem expressions_of_not_blank (htext : first.text? = some text)
    (hblank : text.all Text.isBlank = false) (lines : List Line) :
    expressions (first :: lines) = text :: expressions lines := by
  simp [expressions, htext, hblank]

/-- A line that is no text ends a run, whatever follows it. -/
theorem solveLines_of_none (settings : Settings) (htext : first.text? = none)
    (lines : List Line) :
    solveLines settings (first :: lines) = ⟨[], readErrors (first :: lines), 1⟩ := by
  rw [Line.text?] at htext
  rw [readErrors, areTexts_of_none htext, solveLines, htext]
  rfl

theorem solveLines_of_blank (settings : Settings) (htext : first.text? = some text)
    (hblank : text.all Text.isBlank = true) (lines : List Line) :
    solveLines settings (first :: lines) = solveLines settings lines := by
  rw [Line.text?] at htext
  simp only [solveLines, htext, if_pos hblank]

theorem solveLines_of_not_blank (settings : Settings) (htext : first.text? = some text)
    (hblank : text.all Text.isBlank = false) (lines : List Line) :
    solveLines settings (first :: lines) =
      (solveOne settings text).followedBy (solveLines settings lines) := by
  rw [Line.text?] at htext
  simp only [solveLines, htext, hblank, if_neg Bool.false_ne_true]

end Steps

/-- The outcome of a run over lines, from the outcomes of its expressions. -/
theorem solveLines_eq (settings : Settings) (lines : List Line) :
    solveLines settings lines =
      ⟨(results settings (expressions lines)).flatMap line,
        (faults settings (expressions lines)).flatMap (errorLine ∘ Fault.message) ++
          readErrors lines,
        if faults settings (expressions lines) = [] ∧ areTexts lines then 0 else 1⟩ := by
  induction lines with
  | nil => rfl
  | cons first lines ih =>
    cases htext : first.text? with
    | none =>
      rw [solveLines_of_none settings htext, expressions_of_none htext, areTexts_of_none htext]
      rfl
    | some text =>
      rw [readErrors, areTexts_of_some htext lines, ← readErrors]
      cases hblank : text.all Text.isBlank with
      | true =>
        rw [solveLines_of_blank settings htext hblank, ih, expressions_of_blank htext hblank]
      | false =>
        rw [solveLines_of_not_blank settings htext hblank, ih,
          expressions_of_not_blank htext hblank, solveOne]
        cases hsolve : settings.solve text with
        | ok result =>
          rw [results_cons_ok hsolve, faults_cons_ok hsolve]
          simp [Outcome.followedBy]
        | error fault =>
          rw [results_cons_error hsolve, faults_cons_error hsolve]
          simp only [Outcome.followedBy, List.flatMap_cons, List.append_assoc]
          rw [Nat.max_eq_left (by split <;> decide)]
          rfl

/-! ## The whole run -/

/-- The run that options ask for. -/
theorem run_map_text (flags : List Flag) (environment : List (Text × Text)) (input : List UInt8) :
    run (flags.map Flag.text) environment input =
      solveLines (Flag.setAll { separators := environmentSeparators environment } flags)
        (splitLines input) := by
  rw [run, request, readArguments_eq_solve_nil_iff.2 ⟨flags, rfl, rfl⟩]
  rfl

/-- An input is made of lines in one way only, and a run solves each line that is not blank as
if it were alone.  The results and the messages stand in the order of the lines; a line that is
no text adds the last message and ends the run, and a run without messages is the one that
succeeds. -/
theorem run_flags (flags : List Flag) (environment : List (Text × Text)) (input : List UInt8) :
    (∃! lines, AreLines lines ∧ lines.flatMap Line.part = input) ∧
      (∀ first : Line, ∀ text, first.text? = some text ↔ first.Holds text) ∧
      ∀ lines, AreLines lines → lines.flatMap Line.part = input →
        let settings := Flag.setAll { separators := environmentSeparators environment } flags
        let texts := expressions lines
        let outcome := run (flags.map Flag.text) environment input
        outcome.output = (results settings texts).flatMap (· ++ ['\n']) ∧
          outcome.errors = ((faults settings texts).flatMap fun fault =>
            "error: ".toList ++ fault.message ++ ['\n']) ++ readErrors lines ∧
          outcome.code = (if faults settings texts = [] ∧ areTexts lines then 0 else 1) ∧
          ∀ first ∈ lines, ∀ text, first.Holds text → text.all Text.isBlank = false →
            run (flags.map Flag.text) environment first.part = solveOne settings text := by
  refine ⟨⟨splitLines input, splitLines_eq_iff.1 rfl, fun lines hlines =>
    (splitLines_eq_iff.2 hlines).symm⟩, fun _ _ => text?_eq_some_iff, ?_⟩
  intro lines hlines hinput settings texts outcome
  have hsplit : splitLines input = lines := splitLines_eq_iff.2 ⟨hlines, hinput⟩
  have hrun : outcome = solveLines settings lines := hsplit ▸ run_map_text flags environment input
  have houtcome : outcome = _ := hrun.trans (solveLines_eq settings lines)
  refine ⟨congrArg Outcome.output houtcome, congrArg Outcome.errors houtcome,
    congrArg Outcome.code houtcome, ?_⟩
  intro first hfirst text hholds hblank
  rw [run_map_text, splitLines_part (hsplit ▸ hfirst),
    solveLines_of_not_blank _ (text?_eq_some_iff.2 hholds) hblank, solveLines, followedBy_nothing]

/-- The lines of an input: a sum, a blank, an expression that breaks off, bytes that are no
text, and a numeral that is not reached. -/
def mixedLines : List Line :=
  [(encode "1000+1".toList, true), (encode " \r".toList, true), (encode "2+".toList, true),
    ([0xff], true), (encode "3".toList, false)]

theorem run_flags_mixed :
    AreLines mixedLines ∧
      run ["--group".toList] [] (mixedLines.flatMap Line.part) =
        ⟨"1,001\n".toList, ("error: unexpected end of expression\n" ++
          "error: failed to read input: stream did not contain valid UTF-8\n").toList, 1⟩ ∧
      run ["--group".toList] [] (encode "1000+1\n".toList) = ⟨"1,001\n".toList, [], 0⟩ := by
  have hlines : AreLines mixedLines :=
    .cons _ _ (by decide) <| .cons _ _ (by decide) <| .cons _ _ (by decide) <|
      .cons _ _ (by decide) <| .last _ (by decide) (by decide)
  obtain ⟨-, htexts, hrun⟩ := run_flags [.group] [] (mixedLines.flatMap Line.part)
  obtain ⟨houtput, herrors, hcode, halone⟩ := hrun mixedLines hlines rfl
  have hfirst : run ["--group".toList] [] (encode "1000+1\n".toList) = _ :=
    halone (encode "1000+1".toList, true) (.head _) "1000+1".toList
      ((htexts _ _).1 (by decide +kernel)) (by decide)
  refine ⟨hlines, ?_, hfirst.trans (by decide +kernel)⟩
  exact Outcome.ext (houtput.trans (by decide +kernel)) (herrors.trans (by decide +kernel))
    (hcode.trans (by decide +kernel))

end MatrixCalculator.CommandLine
