import MatrixCalculator.Proofs.Expression.Results
import MatrixCalculator.Proofs.Expression.Splicing

/-!
# Literals as they are typed

A field of a literal may be an expression of its own.  The fields are evaluated before
anything else, and from then on the written matrix stands in the place of the literal.
So a literal means what is written of its matrix, whatever stands beside it.
-/

namespace MatrixCalculator

open Expression Numeral Outcome Text

instance {α : Type} [DecidableEq α] : DecidableEq (Matrix α) := fun a b =>
  decidable_of_iff (a.width = b.width ∧ a.rows = b.rows)
    ⟨fun h => Matrix.ext h.1 h.2, fun h => h ▸ ⟨rfl, rfl⟩⟩

/-- Whether a text is typed as a literal whose fields have the entries of a matrix as
their values. -/
structure Literal.Denotes (limit : Nat) (literal : Text) (m : Matrix Float) : Prop where
  alone : Literal.atStart? (Display.enter .canonical literal) =
    some (Display.enter .canonical literal, [])
  read_eq : Literal.read .canonical (resolve limit limit) (Display.enter .canonical literal) = .ok m

instance (limit : Nat) (literal : Text) (m : Matrix Float) :
    Decidable (Literal.Denotes limit literal m) :=
  decidable_of_iff (_ ∧ _) ⟨fun h => ⟨h.1, h.2⟩, fun h => ⟨h.1, h.2⟩⟩

namespace Expression

variable {limit : Nat} {text : Text}

theorem resolve_write_of_le (hlimit : 1 ≤ limit) (x : Float) :
    resolve limit limit (write x) = .ok (write x) := by
  obtain ⟨levels, rfl⟩ := Nat.exists_eq_add_of_le' hlimit
  exact resolve_write _ levels x

/-- A written operand is a plain part of an expression. -/
theorem isPlainPart_operand {evaluate : Text → Except Fault Text} {x : Operand}
    (hx : x.HasEntries) (hevaluate : ∀ x, evaluate (write x) = .ok (write x)) :
    IsPlainPart evaluate x.write where
  entered := enter_eq (fits_operand x none)
  keepsLiterals := keepsLiterals_operand hx hevaluate
  unmarked c hc := by
    have hmarks : ∀ c ∈ "()%!".toList, c ∉ valueAlphabet := List.all_iff_forall_prop.1 (by decide)
    exact not_mem_operand x (hmarks c hc)

theorem isPlainPart_write {evaluate : Text → Except Fault Text} (x : Float) :
    IsPlainPart evaluate (write x) where
  entered := enter_eq (fits_operand (.scalar x) none)
  keepsLiterals := keepsLiterals_of_not_mem (not_mem_number x (by decide))
  unmarked c hc := by
    have hmarks : ∀ c ∈ "()%!".toList, c ∉ numberAlphabet := List.all_iff_forall_prop.1 (by decide)
    exact not_mem_number x (hmarks c hc)

end Expression

namespace Literal.Denotes

variable {limit : Nat} {literal before after : Text} {m : Matrix Float}
  (hliteral : Literal.Denotes limit literal m)
include hliteral

theorem hasEntries : m.HasEntries := (Literal.hasEntries_of_read hliteral.read_eq).1

/-- The fields of a literal are one level deeper than the literal. -/
theorem one_le : 1 ≤ limit := by
  obtain ⟨-, field, value, hvalue⟩ := Literal.hasEntries_of_read hliteral.read_eq
  refine Nat.one_le_iff_ne_zero.2 ?_
  rintro rfl
  cases hvalue

theorem isPlainPart : IsPlainPart (resolve limit limit) (Literal.write m) :=
  isPlainPart_operand (x := .matrix m) hliteral.hasEntries (resolve_write_of_le hliteral.one_le)

theorem operand_eq :
    operand limit (resolve limit limit) (Literal.write m) = .ok (.matrix (m.map shown)) :=
  operand_matrix hliteral.hasEntries (resolve_write_of_le hliteral.one_le)

/-- The first pass puts the written matrix in the place of a literal. -/
theorem canonicalizeLiterals_eq (rest : Text) :
    canonicalizeLiterals .canonical (resolve limit limit)
        (Display.enter .canonical literal ++ rest) =
      (Literal.write m ++ ·) <$> canonicalizeLiterals .canonical (resolve limit limit) rest := by
  obtain ⟨inside, hinside, halone⟩ := Option.bind_eq_some_iff.1 hliteral.alone
  obtain ⟨⟨body, behind⟩, hcut, halone⟩ := Option.bind_eq_some_iff.1 halone
  obtain ⟨htext, rfl⟩ : Literal.opening ++ body ++ Literal.closing =
      Display.enter .canonical literal ∧ behind = [] := by simpa using halone
  have hread := hliteral.read_eq
  rw [← htext] at hread ⊢
  have hopen : cut? Literal.opening (Literal.opening ++ body ++ Literal.closing ++ rest) =
      some ([], body ++ Literal.closing ++ rest) := by
    rw [List.append_assoc, List.append_assoc, ← List.append_assoc body]
    exact cut?_mark (List.cons_ne_nil _ _)
  rw [canonicalizeLiterals_of_cut? hopen (cut?_of_cut? hcut rest), hread, ok_bind,
    List.nil_append, map_eq_pure_bind]

/-- A literal means what is written of its matrix, whatever stands beside it. -/
theorem evaluate_around (hbefore : Display.enter .canonical before = before)
    (hkeeps : KeepsLiterals (resolve limit limit) before)
    (hafter : Display.enter .canonical after = after)
    (hkeeps' : KeepsLiterals (resolve limit limit) after) :
    Expression.evaluate limit .canonical (before ++ literal ++ after) =
      Expression.evaluate limit .canonical (before ++ Literal.write m ++ after) := by
  have hplain := hliteral.isPlainPart
  have hcanonical : canonicalizeLiterals .canonical (resolve limit limit)
      (Display.enter .canonical (before ++ literal ++ after)) =
      .ok (before ++ Literal.write m ++ after) := by
    rw [Display.enter_append, Display.enter_append, hbefore, hafter, List.append_assoc, hkeeps,
      hliteral.canonicalizeLiterals_eq, hkeeps'.canonicalizeLiterals_eq]
    simp
  have hentered : Display.enter .canonical (before ++ Literal.write m ++ after) =
      before ++ Literal.write m ++ after := by
    rw [Display.enter_append, Display.enter_append, hbefore, hafter, hplain.entered]
  have hwritten : KeepsLiterals (resolve limit limit) (before ++ Literal.write m ++ after) :=
    (hkeeps.append hplain.keepsLiterals).append hkeeps'
  rw [evaluate_of_entered hentered hwritten, Expression.evaluate, hcanonical, ok_bind, resolve]

end Literal.Denotes

namespace Expression

variable {limit : Nat} {text : Text}

/-! ## Reports -/

/-- What is reported of a value: its text, unless there is an entry that is not a number. -/
def report (x : Operand) : Except Fault Text :=
  if contains notANumberWord x.write then .error .notANumber else .ok x.write

theorem report_shown (x : Operand) : report x.shown = report x := by
  rw [report, report, x.write_shown]

theorem report_scalar (x : Float) :
    report (.scalar x) = if x.isNaN then .error .notANumber else .ok (write x) := by
  have hiff := Operand.contains_write_iff (.scalar x)
  rw [Operand.IsNumber] at hiff
  rw [report]
  cases hword : contains notANumberWord (Operand.scalar x).write with
  | true =>
    have hnan : x.isNaN = true := by
      rw [← Bool.not_eq_false, ← hiff, hword]
      exact Bool.false_ne_true.symm
    rw [hnan]
    rfl
  | false =>
    rw [hiff.1 hword]
    rfl

/-- A matrix that is written and read again is reported as it has been. -/
theorem report_written {evaluate : Text → Except Fault Text} {result : Except Fault Operand}
    (hevaluate : ∀ x, evaluate (write x) = .ok (write x))
    (hmatrix : ∀ x, result = .ok x → ∃ m : Matrix Float, x = .matrix m ∧ m.HasEntries) :
    (do
      let resolved ← Operand.write <$> result
      let x ← operand limit evaluate resolved
      report x) = (do report (← result)) := by
  cases result with
  | error cause => rfl
  | ok x =>
    obtain ⟨m, rfl, hentries⟩ := hmatrix x rfl
    rw [map_ok, ok_bind, ok_bind, Operand.write, operand_matrix hentries hevaluate, ok_bind]
    exact report_shown (.matrix m)

/-- What the passes leave is reported, where it is the text of an operand. -/
theorem evaluate_of_passes_write {x : Operand} (hentered : Display.enter .canonical text = text)
    (hkeeps : KeepsLiterals (resolve limit limit) text)
    (hpasses : passes limit (resolve limit limit) text = .ok x.write)
    (hoperand : operand limit (resolve limit limit) x.write = .ok x.shown) :
    Expression.evaluate limit .canonical text = report x := by
  rw [evaluate_of_entered hentered hkeeps, hpasses, ok_bind, hoperand, ok_bind, x.write_shown]
  rfl

end Expression

end MatrixCalculator
