import MatrixCalculator.Calculator
import MatrixCalculator.Proofs.Expression.Literals

/-!
# Limits of nesting

A limit of nesting is only looked at where a group, a function or a field is opened.
So with a smaller limit an expression either has the outcome that it has with a larger
one, or the smaller limit is reported.  This is kept by every step of the evaluation, as
long as the steps before it keep it.
-/

namespace MatrixCalculator

namespace Outcome

variable {ε α β : Type} {cause : ε} {x y : Except ε α}

/-- Whether an outcome is the same as another one, up to a fault that may take its
place. -/
def UpTo (cause : ε) (x y : Except ε α) : Prop := y = x ∨ y = .error cause

theorem UpTo.refl (x : Except ε α) : UpTo cause x x := .inl rfl

theorem upTo_error (x : Except ε α) : UpTo cause x (.error cause) := .inr rfl

/-- A value that is there in spite of the fault is there without it. -/
theorem UpTo.eq_ok {a : α} (h : UpTo cause x y) (hy : y = .ok a) : x = .ok a := by
  rcases h with rfl | h
  · exact hy
  · rw [h] at hy
    cases hy

theorem UpTo.bind {f g : α → Except ε β} (hfirst : UpTo cause x y)
    (hrest : ∀ a, UpTo cause (f a) (g a)) : UpTo cause (x >>= f) (y >>= g) := by
  rcases hfirst with rfl | rfl
  · cases y with
    | error e => exact .refl _
    | ok a => exact hrest a
  · exact .inr rfl

theorem UpTo.map (hfirst : UpTo cause x y) (f : α → β) : UpTo cause (f <$> x) (f <$> y) := by
  rw [map_eq_pure_bind, map_eq_pure_bind]
  exact hfirst.bind fun _ => .refl _

theorem mapM_upTo {f g : α → Except ε β} (hsteps : ∀ a, UpTo cause (f a) (g a)) (list : List α) :
    UpTo cause (list.mapM f) (list.mapM g) := by
  induction list with
  | nil => exact .refl _
  | cons a list ih =>
    rw [List.mapM_cons, List.mapM_cons]
    exact (hsteps a).bind fun _ => ih.bind fun _ => .refl _

theorem foldlM_upTo {f g : β → α → Except ε β} (hsteps : ∀ b a, UpTo cause (f b a) (g b a))
    (list : List α) (start : β) : UpTo cause (list.foldlM f start) (list.foldlM g start) := by
  induction list generalizing start with
  | nil => exact .refl _
  | cons a list ih =>
    rw [List.foldlM_cons, List.foldlM_cons]
    exact (hsteps start a).bind ih

end Outcome

open Outcome

/-! ## Scalar expressions -/

namespace Scalar

variable {limit larger : Nat} (hlimit : limit ≤ larger)
include hlimit

theorem nest_upTo (inner : Pending) (pending : List Pending) :
    UpTo (.nestingTooDeep limit) (nest larger inner pending) (nest limit inner pending) := by
  by_cases hopen : pending.countP Pending.isNested < limit
  · rw [nest, nest, if_pos hopen, if_pos (Nat.lt_of_lt_of_le hopen hlimit)]
    exact .refl _
  · rw [nest, nest, if_neg hopen]
    exact upTo_error _

theorem readOperand_upTo (pending : List Pending) (lexeme : Lexeme) :
    UpTo (.nestingTooDeep limit) (readOperand larger pending lexeme)
      (readOperand limit pending lexeme) := by
  rw [readOperand.eq_def, readOperand.eq_def]
  split
  all_goals first | exact .refl _ | exact nest_upTo hlimit _ _

theorem readBehind_upTo (x : Float) (pending : List Pending) (lexeme : Lexeme) :
    UpTo (.nestingTooDeep limit) (readBehind larger x pending lexeme)
      (readBehind limit x pending lexeme) := by
  rw [readBehind.eq_def, readBehind.eq_def]
  split
  · exact .refl _
  · exact .refl _
  · exact .refl _
  · exact .refl _
  · split
    · exact readOperand_upTo hlimit _ _
    · exact .refl _

theorem readLexeme_upTo (progress : Progress) (lexeme : Lexeme) :
    UpTo (.nestingTooDeep limit) (readLexeme larger progress lexeme)
      (readLexeme limit progress lexeme) := by
  rw [readLexeme, readLexeme]
  split
  · exact readOperand_upTo hlimit _ _
  · exact readBehind_upTo hlimit _ _ _

theorem evaluate_upTo (text : Text) :
    UpTo (.nestingTooDeep limit) (evaluate larger text) (evaluate limit text) := by
  have hvalue : ∀ lexemes,
      UpTo (.nestingTooDeep limit) (valueOf larger lexemes) (valueOf limit lexemes) :=
    fun lexemes => (foldlM_upTo (readLexeme_upTo hlimit) lexemes .start).bind fun _ => .refl _
  exact (UpTo.refl _).bind fun lexemes => (hvalue lexemes).bind fun _ => .refl _

end Scalar

/-! ## The passes over an expression -/

section Passes

variable {cause : Fault} {evaluate limited : Text → Except Fault Text} {separators : Separators}
  (hevaluate : ∀ text, UpTo cause (evaluate text) (limited text))
include hevaluate

namespace Literal

theorem readFields_upTo (fields : List Text) :
    UpTo cause (readFields evaluate fields) (readFields limited fields) := by
  induction fields with
  | nil => exact .refl _
  | cons field fields ih =>
    rw [readFields, readFields]
    split
    · exact .refl _
    · refine (hevaluate field).bind fun value => ?_
      split
      · exact .refl _
      · exact ih.bind fun _ => .refl _

theorem readRows_upTo (width : Nat) (rows : List (List Text)) :
    UpTo cause (readRows evaluate width rows) (readRows limited width rows) := by
  induction rows with
  | nil => exact .refl _
  | cons fields rows ih =>
    rw [readRows, readRows]
    split
    · exact .refl _
    · exact (readFields_upTo hevaluate fields).bind fun _ => ih.bind fun _ => .refl _

theorem read_upTo (text : Text) :
    UpTo cause (read separators evaluate text) (read separators limited text) := by
  rw [read, read]
  split
  · exact .refl _
  · exact (readRows_upTo hevaluate _ _).bind fun _ => .refl _

end Literal

namespace Expression

open Text

theorem canonicalizeLiterals_upTo (text : Text) :
    UpTo cause (canonicalizeLiterals separators evaluate text)
      (canonicalizeLiterals separators limited text) := by
  induction hsize : text.length using Nat.strong_induction_on generalizing text with
  | h size ih =>
    cases hopen : cut? Literal.opening text with
    | none =>
      rw [canonicalizeLiterals_of_no_opening hopen, canonicalizeLiterals_of_no_opening hopen]
      exact .refl _
    | some parts =>
      obtain ⟨before, inside⟩ := parts
      cases hclose : cut? Literal.closing inside with
      | none =>
        rw [canonicalizeLiterals_of_no_closing hopen hclose,
          canonicalizeLiterals_of_no_closing hopen hclose]
        exact .refl _
      | some parts =>
        obtain ⟨body, rest⟩ := parts
        have hshorter := (length_lt_of_cut? (List.cons_ne_nil _ _) hclose).trans
          (length_lt_of_cut? (List.cons_ne_nil _ _) hopen)
        rw [canonicalizeLiterals_of_cut? hopen hclose, canonicalizeLiterals_of_cut? hopen hclose]
        exact (Literal.read_upTo hevaluate _).bind fun _ =>
          (ih rest.length (hsize ▸ hshorter) rest rfl).bind fun _ => .refl _

theorem replaceInnermost_upTo (pending : Option Text) (text : Text) :
    UpTo cause (replaceInnermost evaluate pending text)
      (replaceInnermost limited pending text) := by
  induction text generalizing pending with
  | nil => cases pending <;> exact .refl _
  | cons c text ih =>
    cases pending with
    | none =>
      rw [replaceInnermost, replaceInnermost]
      split
      · exact ih _
      · exact (ih none).bind fun _ => .refl _
    | some pending =>
      rw [replaceInnermost, replaceInnermost]
      split
      · exact (ih _).bind fun _ => .refl _
      · split
        · split
          · exact .refl _
          · exact (hevaluate _).bind fun _ => (ih none).bind fun _ => .refl _
        · exact ih _

theorem replaceGroups_upTo (rounds : Nat) (text : Text) :
    UpTo cause (replaceGroups evaluate rounds text) (replaceGroups limited rounds text) := by
  induction rounds generalizing text with
  | zero => exact .refl _
  | succ rounds ih =>
    rw [replaceGroups, replaceGroups]
    split
    · refine (replaceInnermost_upTo hevaluate none text).bind fun ⟨text, replaced⟩ => ?_
      dsimp only
      split
      · exact ih text
      · exact .refl _
    · exact .refl _

theorem applyFirst_upTo (mark : Mark) (count : Nat) (text : Text) :
    UpTo cause (mark.applyFirst evaluate count text) (mark.applyFirst limited count text) := by
  induction count generalizing text with
  | zero => exact .refl _
  | succ count ih =>
    rw [Mark.applyFirst, Mark.applyFirst]
    split
    · exact .refl _
    · split
      · exact .refl _
      · exact (Literal.read_upTo hevaluate _).bind fun _ => (UpTo.refl _).bind fun _ => ih _

theorem replace_upTo (application : Application) :
    UpTo cause (application.replace evaluate) (application.replace limited) := by
  have hargument : UpTo cause (Application.operand evaluate application.argument)
      (Application.operand limited application.argument) := by
    rw [Application.operand, Application.operand]
    split
    · exact (Literal.read_upTo hevaluate _).map _
    · exact .refl _
  exact hargument.bind fun _ => .refl _

theorem replaceFirst_upTo (count : Nat) (text : Text) :
    UpTo cause (Application.replaceFirst evaluate count text)
      (Application.replaceFirst limited count text) := by
  induction count generalizing text with
  | zero => exact .refl _
  | succ count ih =>
    rw [Application.replaceFirst, Application.replaceFirst]
    split
    · exact .refl _
    · exact (replace_upTo hevaluate _).bind ih

end Expression

end Passes

/-! ## Expressions with matrices -/

namespace Expression

variable {limit larger levels more : Nat} {separators : Separators}

section Level

variable {evaluate limited : Text → Except Fault Text} (hlimit : limit ≤ larger)
  (hevaluate : ∀ text, UpTo (.nestingTooDeep limit) (evaluate text) (limited text))
include hlimit hevaluate

theorem operand_upTo (text : Text) :
    UpTo (.nestingTooDeep limit) (operand larger evaluate text) (operand limit limited text) := by
  rw [operand, operand]
  split
  · exact (Literal.read_upTo hevaluate text).map _
  · exact (Scalar.evaluate_upTo hlimit text).map _

theorem reduceText_upTo (text : Text) :
    UpTo (.nestingTooDeep limit) (reduceText larger evaluate text)
      (reduceText limit limited text) := by
  rw [reduceText, reduceText]
  split
  · exact .refl _
  · exact (mapM_upTo (operand_upTo hlimit hevaluate) _).bind fun _ => .refl _

theorem passes_upTo (text : Text) :
    UpTo (.nestingTooDeep limit) (passes larger evaluate text) (passes limit limited text) := by
  refine (canonicalizeLiterals_upTo hevaluate text).bind fun text => ?_
  refine (UpTo.refl _).bind fun text => ?_
  refine (UpTo.refl _).bind fun text => ?_
  refine (replaceGroups_upTo hevaluate _ text).bind fun text => ?_
  refine (applyFirst_upTo hevaluate _ _ text).bind fun text => ?_
  refine (applyFirst_upTo hevaluate _ _ text).bind fun text => ?_
  refine (replaceFirst_upTo hevaluate _ text).bind fun text => ?_
  exact reduceText_upTo hlimit hevaluate _

end Level

theorem resolve_upTo (hlimit : limit ≤ larger) (hlevels : levels ≤ more) (text : Text) :
    UpTo (.nestingTooDeep limit) (resolve larger more text) (resolve limit levels text) := by
  induction levels generalizing more text with
  | zero => exact upTo_error _
  | succ levels ih =>
    obtain ⟨more, rfl⟩ := Nat.exists_eq_add_of_le' (Nat.le_trans (Nat.le_add_left 1 levels) hlevels)
    rw [resolve, resolve]
    exact passes_upTo hlimit (ih (Nat.le_of_succ_le_succ hlevels)) text

theorem evaluate_upTo (hlimit : limit ≤ larger) (text : Text) :
    UpTo (.nestingTooDeep limit) (evaluate larger separators text)
      (evaluate limit separators text) := by
  have hfields : ∀ text,
      UpTo (.nestingTooDeep limit) (resolve larger larger text) (resolve limit limit text) :=
    resolve_upTo hlimit hlimit
  refine (canonicalizeLiterals_upTo hfields _).bind fun text => ?_
  refine (resolve_upTo hlimit (Nat.succ_le_succ hlimit) text).bind fun text => ?_
  exact (operand_upTo hlimit hfields text).bind fun _ => .refl _

end Expression

/-! ## Displayed expressions -/

namespace Settings

variable {settings : Settings} {limit : Nat}

/-- A smaller limit is reported, or changes nothing. -/
theorem solve_upTo (hlimit : limit ≤ settings.maxDepth) (text result : Text)
    (hresult : settings.solve text = .ok result) :
    { settings with maxDepth := limit }.solve text = .ok result ∨
      { settings with maxDepth := limit }.solve text = .error (.nestingTooDeep limit) := by
  rw [← hresult]
  refine (UpTo.refl _).bind fun decimal => ?_
  have hmatrices : UpTo (.nestingTooDeep limit) (settings.solveMatrices decimal)
      ({ settings with maxDepth := limit }.solveMatrices decimal) :=
    (Expression.evaluate_upTo hlimit decimal).bind fun _ => .refl _
  have hscalar : UpTo (.nestingTooDeep limit) (settings.solveScalar decimal)
      ({ settings with maxDepth := limit }.solveScalar decimal) :=
    ((Scalar.evaluate_upTo hlimit _).map _).bind fun _ => .refl _
  change UpTo _ (if settings.containsMatrices decimal then _ else _)
    (if settings.containsMatrices decimal then _ else _)
  split
  · exact hmatrices
  · exact hscalar

end Settings

end MatrixCalculator
