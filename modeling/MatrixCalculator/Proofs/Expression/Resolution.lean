import MatrixCalculator.Proofs.Expression.Groups
import MatrixCalculator.Proofs.Expression.Quiet

/-!
# The value of a bracketed expression

All that goes from one level of an expression to the next is text.  On a bracketed
expression this is as good as handing on the values, apart from the noise that is not
written: no pass finds anything in the text but the literals and the groups, these are
replaced by what is written of their values, and every operand is split off where it
was put.
-/

namespace MatrixCalculator

open Chain Expression Numeral Outcome Text

namespace Bracketed

variable {t : Bracketed} {value : Operand}

/-! ## Values -/

theorem hasEntries_shown {x : Operand} (hx : x.HasEntries) : x.shown.HasEntries := by
  cases x with
  | scalar x => trivial
  | matrix m => exact hx.map Numeral.shown

theorem hasEntries_of_eval (hoperands : ∀ x ∈ t.operands, x.HasEntries)
    (hvalue : t.eval = .ok value) : value.HasEntries := by
  induction t generalizing value with
  | operand x =>
    cases hvalue
    exact hoperands x (by simp [operands])
  | operation left op right ihleft ihright =>
    obtain ⟨x, hx, y, hy, hvalue⟩ := eval_operation_eq_ok_iff.1 hvalue
    obtain ⟨hleft, hright⟩ := List.forall_mem_append.1 hoperands
    exact Operator.hasEntries_of_apply (hasEntries_shown (ihleft hleft hx))
      (hasEntries_shown (ihright hright hy)) hvalue

/-- With finite numbers inside, the value of every part can stand beside an operator. -/
theorem hasEmbeddableParts_of_finite (hoperands : ∀ x ∈ t.operands, x.IsEmbeddable)
    (hfinite : ∀ part ∈ t.parts, ∀ x, part.eval = .ok (.scalar x) → x.isFinite = true) :
    t.HasEmbeddableParts := by
  have hvalue : ∀ part : Bracketed, (∀ x ∈ part.operands, x.IsEmbeddable) →
      (∀ x, part.eval = .ok (.scalar x) → x.isFinite = true) → part.HasEmbeddableValue := by
    intro part hpart hscalar value heval
    cases value with
    | scalar x => exact hscalar x heval
    | matrix m => exact hasEntries_of_eval (fun x hx => (hpart x hx).hasEntries) heval
  induction t with
  | operand x => trivial
  | operation left op right ihleft ihright =>
    obtain ⟨hleft, hright⟩ := List.forall_mem_append.1 hoperands
    simp only [parts, List.forall_mem_cons, List.forall_mem_append] at hfinite
    obtain ⟨hscalarLeft, hscalarRight, hpartsLeft, hpartsRight⟩ := hfinite
    exact ⟨ihleft hleft hpartsLeft, ihright hright hpartsRight, hvalue left hleft hscalarLeft,
      hvalue right hright hscalarRight⟩

/-! ## Texts -/

theorem fits_text (t : Bracketed) : Fits IsQuiet t.text := by
  have hopen : Fits IsQuiet ['('] :=
    fun _ => ⟨isQuiet (by decide) (by decide) (by decide), trivial⟩
  have hclose : Fits IsQuiet [')'] :=
    fun _ => ⟨isQuiet (by decide) (by decide) (by decide), trivial⟩
  induction t with
  | operand x => exact fits_operand x
  | operation left op right ihleft ihright =>
    exact hopen.append (ihleft.append ((fits_symbol op).append (ihright.append hclose)))

theorem keepsLiterals_text {evaluate : Text → Except Fault Text}
    (hoperands : ∀ x ∈ t.operands, x.HasEntries)
    (hevaluate : ∀ x, evaluate (write x) = .ok (write x)) : KeepsLiterals evaluate t.text := by
  induction t with
  | operand x => exact keepsLiterals_operand (hoperands x (by simp [operands])) hevaluate
  | operation left op right ihleft ihright =>
    obtain ⟨hleft, hright⟩ := List.forall_mem_append.1 hoperands
    have hsymbol : KeepsLiterals evaluate op.symbol :=
      keepsLiterals_of_not_mem (not_mem_symbol op (by decide))
    exact (keepsLiterals_singleton (by decide)).append ((ihleft hleft).append
      (hsymbol.append ((ihright hright).append (keepsLiterals_singleton (by decide)))))

end Bracketed

namespace Expression

open Bracketed

variable {t : Bracketed} {text : Text}

/-! ## Levels -/

theorem split_write (x : Operand) : split x.write = ⟨[x.write], []⟩ :=
  splitAfter_eq (follows_operand admitsValues_isSolid x (isSolid_minus rfl))

/-- A written number is an expression that is its own value. -/
theorem resolve_write (limit levels : Nat) (x : Float) :
    resolve limit (levels + 1) (write x) = .ok (write x) := by
  have hliterals : KeepsLiterals (resolve limit levels) (write x) :=
    keepsLiterals_of_not_mem (not_mem_number x (by decide))
  rw [resolve, passes_eq hliterals (fits_operand (.scalar x) none)
    (not_mem_number x (by decide)) (not_mem_number x (by decide))]
  exact reduceText_of_atom (split_write (.scalar x)) rfl

/-- Two levels are enough for an operation: one for itself and one for the fields of
literals. -/
theorem appliesOperators_resolve (limit levels : Nat) :
    AppliesOperators (resolve limit (levels + 2)) := by
  intro x y op hx hy
  have hfields := resolve_write limit levels
  have hliterals : KeepsLiterals (resolve limit (levels + 1)) (x.write ++ (op.symbol ++ y.write)) :=
    (keepsLiterals_operand hx.hasEntries hfields).append
      ((keepsLiterals_of_not_mem (not_mem_symbol op (by decide))).append
        (keepsLiterals_operand hy.hasEntries hfields))
  have hquiet : Fits IsQuiet (x.write ++ (op.symbol ++ y.write)) :=
    (fits_operand x).append ((fits_symbol op).append (fits_operand y))
  have hopen : '(' ∉ x.write ++ (op.symbol ++ y.write) := by
    simp [(paren_not_mem_write _).1, (paren_not_mem_symbol op).1]
  have hclose : ')' ∉ x.write ++ (op.symbol ++ y.write) := by
    simp [(paren_not_mem_write _).2, (paren_not_mem_symbol op).2]
  rw [resolve, passes_eq hliterals (hquiet none) hopen hclose, reduceText_pair op hx hy hfields]

/-- The passes over a bracketed expression end with the text of its value. -/
theorem passes_text {limit levels : Nat} (hparts : t.HasEmbeddableParts)
    (hoperands : ∀ x ∈ t.operands, x.HasEntries) :
    passes limit (resolve limit (levels + 2)) t.text = .ok text ↔
      ∃ value, t.eval = .ok value ∧ value.write = text := by
  have hgroups : ∀ {found}, resolveGroups (resolve limit (levels + 2)) t.text = .ok found ↔ _ :=
    resolveGroups_text (appliesOperators_resolve limit levels) hparts
  have hliterals := keepsLiterals_text hoperands (resolve_write limit (levels + 1))
  have hbalanced : t.text.count '(' = t.text.count ')' := by
    rw [(count_text t).1, (count_text t).2]
  cases hfound : resolveGroups (resolve limit (levels + 2)) t.text with
  | error cause =>
    rw [passes_of_groups_error hliterals (fits_text t none) hbalanced hfound, ← hgroups, hfound]
  | ok found =>
    obtain ⟨value, hvalue, rfl⟩ := hgroups.1 hfound
    rw [passes_of_groups hliterals (fits_text t none) hbalanced hfound (fits_operand value none),
      reduceText_of_atom (split_write value) rfl, ← hgroups, hfound]

/-- The report of a value: its text, unless an entry is not a number. -/
theorem report_eq_ok_iff {limit : Nat} {evaluate : Text → Except Fault Text} {value : Operand}
    (hvalue : value.HasEntries) (hevaluate : ∀ x, evaluate (write x) = .ok (write x)) :
    (do
      let value ← operand limit evaluate value.write
      if contains notANumberWord value.write then throw .notANumber
      else return value.write) = (.ok text : Except Fault Text) ↔
        value.IsNumber ∧ value.write = text := by
  have hreport : operand limit evaluate value.write = .ok value.shown → ((do
      let value ← operand limit evaluate value.write
      if contains notANumberWord value.write then throw .notANumber
      else return value.write) = (.ok text : Except Fault Text) ↔
        value.IsNumber ∧ value.write = text) := by
    intro hread
    rw [hread, ok_bind, value.write_shown, ← value.contains_write_iff]
    cases contains notANumberWord value.write <;> simp
  cases value with
  | scalar x =>
    cases hnumber : x.isNaN with
    | true =>
      have hfails : operand limit evaluate (write x) = .error (.unknownSymbol notANumberWord) := by
        rw [operand_of_no_literal (not_mem_number x (by decide)),
          Scalar.evaluate_write_of_isNaN hnumber, map_error]
      rw [Operand.write, hfails, error_bind]
      constructor
      · intro hreported
        cases hreported
      · rintro ⟨hvalue, -⟩
        rw [Operand.IsNumber, hnumber] at hvalue
        cases hvalue
    | false => exact hreport (operand_scalar hnumber)
  | matrix m => exact hreport (operand_matrix hvalue hevaluate)

/-- An expression in which every operation is in parentheses has the value of its tree,
as long as no number inside of it is infinite or none. -/
theorem evaluate_bracketed (t : Bracketed) {limit : Nat} (hlimit : 2 ≤ limit)
    (hoperands : ∀ x ∈ t.operands, x.IsEmbeddable)
    (hfinite : ∀ part ∈ t.parts, ∀ x, part.eval = .ok (.scalar x) → x.isFinite = true)
    (text : Text) :
    Expression.evaluate limit Separators.canonical t.text = .ok text ↔
      ∃ value, t.eval = .ok value ∧ value.IsNumber ∧ value.write = text := by
  obtain ⟨levels, rfl⟩ := Nat.exists_eq_add_of_le' hlimit
  have hentries : ∀ x ∈ t.operands, x.HasEntries := fun x hx => (hoperands x hx).hasEntries
  have hfields := resolve_write (levels + 2) (levels + 1)
  rw [evaluate_eq_bind (fits_text t none) (keepsLiterals_text hentries hfields), bind_eq_ok_iff]
  constructor
  · rintro ⟨resolved, hresolved, hreport⟩
    obtain ⟨value, hvalue, rfl⟩ :=
      (passes_text (hasEmbeddableParts_of_finite hoperands hfinite) hentries).1 hresolved
    exact ⟨value, hvalue, (report_eq_ok_iff (hasEntries_of_eval hentries hvalue) hfields).1 hreport⟩
  · rintro ⟨value, hvalue, hreport⟩
    refine ⟨value.write,
      (passes_text (hasEmbeddableParts_of_finite hoperands hfinite) hentries).2
        ⟨value, hvalue, rfl⟩, ?_⟩
    exact (report_eq_ok_iff (hasEntries_of_eval hentries hvalue) hfields).2 hreport

theorem evaluate_product_of_sum :
    Expression.evaluate 2 Separators.canonical "((1+2)×[[1,-0.5]])".toList =
      .ok "[[3,-1.5]]".toList := by
  have htext : (operation (operation (.operand (.scalar 1)) .add (.operand (.scalar 2))) .mul
      (.operand (.matrix (Matrix.ofRows 2 [[1, -0.5]])))).text = "((1+2)×[[1,-0.5]])".toList := by
    decide +kernel
  rw [← htext]
  refine (evaluate_bracketed _ (by decide) (by decide +kernel) ?_ _).2 ⟨_, rfl, ?_, ?_⟩
  · simp only [parts, List.forall_mem_cons, List.append_nil]
    refine ⟨?_, ?_, ?_, ?_, nofun⟩
    · rintro x ⟨⟩
      decide
    · rintro x ⟨⟩
    · rintro x ⟨⟩
      decide
    · rintro x ⟨⟩
      decide
  · decide +kernel
  · decide +kernel

end Expression

end MatrixCalculator
