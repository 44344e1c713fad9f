import MatrixCalculator.Proofs.Outcome
import MatrixCalculator.Proofs.Scalar.Grammar

/-!
# Reading tokens

Where an expression stands and how it is written only matters for its faults, so
its value is a function of its tokens.  A value may be handed to what is pending
at once, wherever the next token would do so, and a parenthesis that is forgiven
at the end may as well be there.
-/

namespace MatrixCalculator.Scalar

open Outcome

variable {limit : Nat} {x y : Float} {pending : List Pending} {first : Pending}
variable {progress : Progress} {token : Token} {tokens : List Token} {lexeme : Lexeme}

/-- One token, without the fault of one that is refused. -/
def readToken? (limit : Nat) (progress : Progress) (token : Token) : Option Progress :=
  (readLexeme limit progress ⟨token, 0, []⟩).toOption

/-- What becomes of a value when everything that is pending is completed. -/
def completeAll (x : Float) (pending : List Pending) : Float :=
  pending.foldl (fun x pending => pending.complete x) x

/-- The value of the whole, with no group left open. -/
def closedValue? (progress : Progress) : Option Float :=
  if progress.pending.countP Pending.isGroup = 0 then
    progress.value.map fun x => completeAll x progress.pending
  else none

/-- The value of an expression that has been read up to some tokens. -/
def valueFrom? (limit : Nat) (progress : Progress) : List Token → Option Float
  | [] => closedValue? progress
  | token :: tokens => do valueFrom? limit (← readToken? limit progress token) tokens

theorem toOption_readLexeme (limit : Nat) (progress : Progress) (lexeme : Lexeme) :
    (readLexeme limit progress lexeme).toOption = readToken? limit progress lexeme.token := by
  obtain ⟨token, offset, text⟩ := lexeme
  obtain ⟨value, pending⟩ := progress
  have hoperand : ∀ pending, (readOperand limit pending ⟨token, offset, text⟩).toOption =
      (readOperand limit pending ⟨token, 0, []⟩).toOption := by
    intro pending
    cases token with
    | operator op => cases op <;> rfl
    | _ => rfl
  cases value with
  | none => exact hoperand pending
  | some x =>
    cases token with
    | rightParen =>
      simp only [readToken?, readLexeme, readBehind]
      split <;> rfl
    | number | operator | percent | factorial => rfl
    | leftParen | function | constant => exact hoperand _

/-! ## Strength -/

/-- How strongly what is pending holds on to a value: a group does until its end, a
sum up to the next product. -/
def Pending.strength : Pending → Nat
  | .group => 0
  | .binary _ op => if op.precedence = .additive then 1 else 2
  | .negation | .argument _ => 2

def bindingOf : Precedence → Nat
  | .power => 3
  | .multiplicative => 2
  | .additive => 1

theorem isClosedBy_iff {precedence : Precedence} :
    first.isClosedBy precedence = true ↔ bindingOf precedence ≤ first.strength := by
  cases first with
  | binary left op =>
    cases precedence <;> cases op <;>
      simp [Pending.isClosedBy, bindingOf, Pending.strength, Operator.precedence]
  | _ => cases precedence <;> simp [Pending.isClosedBy, bindingOf, Pending.strength]

theorem binding_operator (op : Operator) :
    (Token.operator op).binding = bindingOf op.precedence := by
  cases op <;> rfl

theorem close_cons_of_le {precedence : Precedence}
    (hstrong : bindingOf precedence ≤ first.strength) :
    close precedence x (first :: pending) = close precedence (first.complete x) pending := by
  rw [close, if_pos (isClosedBy_iff.2 hstrong)]

def headStrength : List Pending → Nat
  | [] => 0
  | first :: _ => first.strength

theorem close_of_lt {precedence : Precedence}
    (hweak : headStrength pending < bindingOf precedence) :
    close precedence x pending = (x, pending) := by
  cases pending with
  | nil => rfl
  | cons first pending =>
    rw [close, if_neg]
    rw [isClosedBy_iff]
    exact Nat.not_le.2 hweak

theorem strength_le_two (first : Pending) : first.strength ≤ 2 := by
  cases first with
  | binary left op => cases op <;> simp [Pending.strength, Operator.precedence]
  | _ => simp [Pending.strength]

theorem strength_eq_zero_iff : first.strength = 0 ↔ first.isGroup = true := by
  cases first with
  | binary left op => cases op <;> simp [Pending.strength, Pending.isGroup, Operator.precedence]
  | _ => simp [Pending.strength, Pending.isGroup]

/-! ## Single tokens -/

/-- A group or an argument that is opened. -/
theorem toOption_nest (inner : Pending) :
    (nest limit inner pending).toOption =
      if pending.countP Pending.isNested < limit then some (.awaiting (inner :: pending))
      else none := by
  rw [nest]
  split <;> rfl

theorem readToken?_leftParen :
    readToken? limit (.awaiting pending) .leftParen =
      if pending.countP Pending.isNested < limit then some (.awaiting (.group :: pending))
      else none :=
  toOption_nest .group

theorem readToken?_function (f : NamedFunction) :
    readToken? limit (.awaiting pending) (.function f) =
      if pending.countP Pending.isNested < limit then some (.awaiting (.argument f :: pending))
      else none :=
  toOption_nest (.argument f)

theorem readToken?_factorial :
    readToken? limit (.having x pending) .factorial =
      (factorial? x).map (Progress.having · pending) := by
  rw [← toOption_factorialOf]
  simp only [readToken?, readLexeme, readBehind, Progress.having]
  cases factorialOf x <;> rfl

theorem readToken?_operator (op : Operator) :
    readToken? limit (.having x pending) (.operator op) =
      some (.awaiting (readOperator x pending op)) := rfl

theorem readToken?_rightParen :
    readToken? limit (.having x pending) .rightParen =
      match close .additive x pending with
      | (x, .group :: pending) => some (.having x pending)
      | _ => none := by
  simp only [readToken?, readLexeme, readBehind, Progress.having]
  obtain ⟨y, rest⟩ := close .additive x pending
  cases rest with
  | nil => rfl
  | cons first rest => cases first <;> rfl

/-- A factor without a sign is read like one behind a sign. -/
theorem readLexeme_startsFactor (hstarts : lexeme.token.startsFactor = true) :
    readLexeme limit (.having x pending) lexeme =
      readLexeme limit (.awaiting (readOperator x pending .mul)) lexeme := by
  obtain ⟨token, offset, text⟩ := lexeme
  cases token <;> first | rfl | cases hstarts

theorem readToken?_startsFactor (hstarts : token.startsFactor = true) :
    readToken? limit (.having x pending) token =
      readToken? limit (.awaiting (readOperator x pending .mul)) token :=
  congrArg Except.toOption (readLexeme_startsFactor hstarts)

/-- A token is read first. -/
theorem valueFrom?_cons_eq_some_iff :
    valueFrom? limit progress (token :: tokens) = some x ↔
      ∃ next, readToken? limit progress token = some next ∧
        valueFrom? limit next tokens = some x := by
  rw [valueFrom?, Option.bind_eq_bind, Option.bind_eq_some_iff]

/-- A number is read where an operand has to follow. -/
theorem valueFrom?_number_eq_some_iff :
    valueFrom? limit progress (.number y :: tokens) = some x ↔
      progress.value = none ∧ valueFrom? limit (.having y progress.pending) tokens = some x := by
  obtain ⟨_ | z, pending⟩ := progress
  · exact (and_iff_right rfl).symm
  · exact ⟨nofun, fun h => nomatch h.1⟩

/-- A factorial is read behind a value. -/
theorem valueFrom?_factorial_eq_some_iff :
    valueFrom? limit (.having y pending) (.factorial :: tokens) = some x ↔
      ∃ z, factorialOf y = .ok z ∧ valueFrom? limit (.having z pending) tokens = some x := by
  rw [valueFrom?, readToken?_factorial, ← toOption_factorialOf]
  cases factorialOf y <;> simp

/-! ## Early completion -/

theorem readOperator_complete {op : Operator}
    (hbinding : bindingOf op.precedence ≤ first.strength) :
    readOperator x (first :: pending) op = readOperator (first.complete x) pending op := by
  rw [readOperator, readOperator, close_cons_of_le hbinding]

theorem readLexeme_complete (hgroup : first.strength ≠ 0)
    (hbinding : lexeme.token.binding ≤ first.strength) :
    readLexeme limit (.having x (first :: pending)) lexeme =
      readLexeme limit (.having (first.complete x) pending) lexeme := by
  have htwo := strength_le_two first
  by_cases hstarts : lexeme.token.startsFactor = true
  · rw [readLexeme_startsFactor hstarts, readLexeme_startsFactor hstarts, readOperator_complete]
    rw [Token.binding_of_startsFactor hstarts] at hbinding
    exact hbinding
  · obtain ⟨token, offset, text⟩ := lexeme
    cases token with
    | number z => rfl
    | operator op =>
      rw [binding_operator] at hbinding
      simp only [readLexeme, readBehind, Progress.having, readOperator_complete hbinding]
    | percent | factorial =>
      simp only [Token.binding] at hbinding
      omega
    | rightParen =>
      have hclose : close .additive x (first :: pending) = _ :=
        close_cons_of_le (by simp only [bindingOf]; omega)
      simp only [readLexeme, readBehind, Progress.having, hclose]
    | leftParen | function | constant => exact absurd rfl hstarts

theorem readToken?_complete (hgroup : first.strength ≠ 0)
    (hbinding : token.binding ≤ first.strength) :
    readToken? limit (.having x (first :: pending)) token =
      readToken? limit (.having (first.complete x) pending) token :=
  congrArg Except.toOption (readLexeme_complete hgroup hbinding)

/-- A value that the next token would hand to what is pending may be handed there at
once. -/
theorem valueFrom?_complete (hgroup : first.strength ≠ 0)
    (hbinding : headBinding tokens ≤ first.strength) :
    valueFrom? limit (.having x (first :: pending)) tokens =
      valueFrom? limit (.having (first.complete x) pending) tokens := by
  cases tokens with
  | nil =>
    have hclosed : first.isGroup ≠ true := fun h => hgroup (strength_eq_zero_iff.2 h)
    rw [valueFrom?, valueFrom?, closedValue?, closedValue?, Progress.having, Progress.having,
      List.countP_cons_of_neg hclosed]
    rfl
  | cons token tokens => rw [valueFrom?, valueFrom?, readToken?_complete hgroup hbinding]

/-! ## The forgiven parenthesis -/

/-- A parenthesis completes what is pending up to the innermost group. -/
theorem close_additive_cases (x : Float) (pending : List Pending) :
    ∃ inner rest, pending = inner ++ rest ∧ inner.countP Pending.isGroup = 0 ∧
      close .additive x pending = (completeAll x inner, rest) ∧
      (rest = [] ∨ ∃ outer, rest = .group :: outer) := by
  induction pending generalizing x with
  | nil => exact ⟨[], [], rfl, rfl, rfl, .inl rfl⟩
  | cons first pending ih =>
    by_cases hgroup : first.isGroup = true
    · cases first with
      | group => exact ⟨[], _, rfl, rfl, rfl, .inr ⟨pending, rfl⟩⟩
      | _ => cases hgroup
    · obtain ⟨inner, rest, rfl, hinner, hclose, hrest⟩ := ih (first.complete x)
      refine ⟨first :: inner, rest, rfl, by simpa [hgroup] using hinner, ?_, hrest⟩
      have hstrong : first.strength ≠ 0 := fun h => hgroup (strength_eq_zero_iff.1 h)
      rw [close_cons_of_le (by simp only [bindingOf]; omega), hclose]
      rfl

/-- One open group is as good as a parenthesis that closes it. -/
theorem finish_eq_ok_iff {value : Float} :
    finish progress = .ok value ↔
      closedValue? progress = some value ∨
        valueFrom? limit progress [.rightParen] = some value := by
  obtain ⟨_ | x, pending⟩ := progress
  · simp [finish, closedValue?, valueFrom?, readToken?, readLexeme, readOperand]
  · obtain ⟨inner, rest, rfl, hinner, hclose, hrest⟩ := close_additive_cases x pending
    have hread : readToken? limit ⟨some x, inner ++ rest⟩ .rightParen = _ := readToken?_rightParen
    rw [hclose] at hread
    simp only [finish, closedValue?, valueFrom?, hread, List.countP_append, hinner]
    rcases hrest with rfl | ⟨outer, rfl⟩
    · simp [completeAll]
    · have hgroups : (Pending.group :: outer).countP Pending.isGroup =
          outer.countP Pending.isGroup + 1 := List.countP_cons_of_pos rfl
      have hfold : (inner ++ .group :: outer).foldl (fun x pending => pending.complete x) x =
          completeAll (completeAll x inner) outer := by
        rw [List.foldl_append, List.foldl_cons]
        rfl
      rw [hgroups, hfold]
      by_cases hopen : outer.countP Pending.isGroup = 0
      · simp [-List.countP_eq_zero, Progress.having, hopen]
      · simp [-List.countP_eq_zero, Progress.having, hopen]

/-- The value of an expression is the value of its tokens, or of these with a
parenthesis at the end. -/
theorem valueOf_eq_ok_iff {lexemes : List Lexeme} {value : Float} :
    valueOf limit lexemes = .ok value ↔
      valueFrom? limit .start (lexemes.map Lexeme.token) = some value ∨
        valueFrom? limit .start (lexemes.map Lexeme.token ++ [.rightParen]) = some value := by
  rw [valueOf]
  generalize Progress.start = progress
  induction lexemes generalizing progress with
  | nil =>
    simp only [List.foldlM_nil, pure_eq_ok, ok_bind, List.map_nil, List.nil_append]
    exact finish_eq_ok_iff
  | cons lexeme lexemes ih =>
    rw [List.foldlM_cons, List.map_cons, List.cons_append, valueFrom?, valueFrom?,
      ← toOption_readLexeme]
    cases readLexeme limit progress lexeme with
    | error cause => simp
    | ok next => exact ih next

end MatrixCalculator.Scalar
