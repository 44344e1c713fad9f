/-!
# Outcomes

Every part of the calculator answers with a value or with a fault, one step after
the other.  The lemmas below take such a sequence apart at its first step.
-/

namespace MatrixCalculator.Outcome

variable {ε α β : Type}

@[simp]
theorem pure_eq_ok (a : α) : (pure a : Except ε α) = .ok a := rfl

@[simp]
theorem throw_eq_error (e : ε) : (throw e : Except ε α) = .error e := rfl

@[simp]
theorem ok_bind (a : α) (f : α → Except ε β) : (Except.ok a >>= f) = f a := rfl

@[simp]
theorem error_bind (e : ε) (f : α → Except ε β) : (Except.error e >>= f) = .error e := rfl

@[simp]
theorem map_ok (f : α → β) (a : α) : (f <$> Except.ok a : Except ε β) = .ok (f a) := rfl

@[simp]
theorem map_error (f : α → β) (e : ε) : (f <$> Except.error e : Except ε β) = .error e := rfl

theorem bind_eq_ok_iff {x : Except ε α} {f : α → Except ε β} {b : β} :
    (x >>= f) = .ok b ↔ ∃ a, x = .ok a ∧ f a = .ok b := by
  cases x <;> simp

theorem bind_eq_error_iff {x : Except ε α} {f : α → Except ε β} {e : ε} :
    (x >>= f) = .error e ↔ x = .error e ∨ ∃ a, x = .ok a ∧ f a = .error e := by
  cases x <;> simp

theorem map_eq_ok_iff {x : Except ε α} {f : α → β} {b : β} :
    f <$> x = .ok b ↔ ∃ a, x = .ok a ∧ f a = b := by
  cases x <;> simp

theorem map_eq_error_iff {x : Except ε α} {f : α → β} {e : ε} :
    f <$> x = .error e ↔ x = .error e := by
  cases x <;> simp

theorem ite_eq_ok_iff {condition : Prop} [Decidable condition] {a b : α} {e : ε} :
    (if condition then .ok a else .error e : Except ε α) = .ok b ↔ condition ∧ a = b := by
  split <;> simp [*]

/-- Steps that all answer without a value answer together. -/
@[simp]
theorem forM_ok (steps : List α) :
    (forM steps fun _ => .ok () : Except ε Unit) = .ok () := by
  induction steps with
  | nil => rfl
  | cons _ steps ih => rw [List.forM_cons, ok_bind, ih]

@[simp]
theorem toOption_ok (a : α) : (Except.ok a : Except ε α).toOption = some a := rfl

@[simp]
theorem toOption_error (e : ε) : (Except.error e : Except ε α).toOption = none := rfl

/-! ## Outcomes with one fault -/

/-- Whether an outcome is a value or a certain fault. -/
def FailsOnlyWith (cause : ε) (x : Except ε α) : Prop := ∀ e, x = .error e → e = cause

theorem failsOnlyWith_ok (cause : ε) (a : α) : FailsOnlyWith cause (.ok a) := nofun

theorem FailsOnlyWith.bind {cause : ε} {x : Except ε α} {f : α → Except ε β}
    (hx : FailsOnlyWith cause x) (hf : ∀ a, x = .ok a → FailsOnlyWith cause (f a)) :
    FailsOnlyWith cause (x >>= f) := by
  cases x with
  | error e =>
    rintro _ ⟨⟩
    exact hx e rfl
  | ok a => exact hf a rfl

/-- Two outcomes that can only fail in the same way may be found in either order. -/
theorem FailsOnlyWith.bind_comm {γ : Type} {cause : ε} {x : Except ε α} {y : Except ε β}
    (hx : FailsOnlyWith cause x) (hy : FailsOnlyWith cause y) (f : α → β → Except ε γ) :
    (do let a ← x; let b ← y; f a b) = (do let b ← y; let a ← x; f a b) := by
  cases x with
  | ok a => rfl
  | error e =>
    cases y with
    | ok b => rfl
    | error e' => rw [error_bind, error_bind, hx e rfl, hy e' rfl]

/-! ## Outcomes among other effects -/

section Known

variable {M : Type → Type} [Monad M]

/-- An outcome that has no other effect. -/
def known (x : Except ε α) : ExceptT ε M α := ExceptT.mk (pure x)

/-- Without other effects the next step follows on the value in the same way. -/
theorem bind_id (x : Except ε α) (f : α → Except ε β) :
    @bind (ExceptT ε Id) _ α β x f = (x >>= f) := by
  cases x <;> rfl

variable [LawfulMonad M]

@[simp]
theorem known_ok_bind (a : α) (f : α → ExceptT ε M β) : known (.ok a) >>= f = f a := by
  apply ExceptT.ext
  simp only [known, ExceptT.run_bind, ExceptT.run_mk, pure_bind]

@[simp]
theorem known_error_bind (e : ε) (f : α → ExceptT ε M β) :
    known (.error e) >>= f = known (.error e) := by
  apply ExceptT.ext
  simp only [known, ExceptT.run_bind, ExceptT.run_mk, pure_bind]

@[simp]
theorem map_known (f : α → β) (x : Except ε α) :
    (f <$> known x : ExceptT ε M β) = known (f <$> x) := by
  apply ExceptT.ext
  rw [ExceptT.run_map, known, known, ExceptT.run_mk, ExceptT.run_mk, map_pure]
  cases x <;> rfl

@[simp]
theorem liftM_pure_bind (a : α) (f : α → ExceptT ε M β) :
    (liftM (pure a : M α) : ExceptT ε M α) >>= f = f a := by
  apply ExceptT.ext
  simp

theorem liftM_pure_eq_known (a : α) :
    (liftM (pure a : M α) : ExceptT ε M α) = known (.ok a) := by
  apply ExceptT.ext
  simp [known]

/-- Steps without other effects have none together. -/
theorem mapM_eq_known {f : α → ExceptT ε M β} {g : α → Except ε β} {list : List α}
    (hsteps : ∀ a ∈ list, f a = known (g a)) : list.mapM f = known (list.mapM g) := by
  induction list with
  | nil => rfl
  | cons a list ih =>
    rw [List.forall_mem_cons] at hsteps
    rw [List.mapM_cons, List.mapM_cons, hsteps.1]
    cases g a with
    | error e => rw [known_error_bind, error_bind]
    | ok b =>
      rw [known_ok_bind, ok_bind, ih hsteps.2]
      cases list.mapM g with
      | error e => rw [known_error_bind, error_bind]
      | ok values =>
        rw [known_ok_bind, ok_bind]
        rfl

end Known

end MatrixCalculator.Outcome
