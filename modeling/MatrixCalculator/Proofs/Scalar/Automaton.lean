import MatrixCalculator.Proofs.Scalar.Derivations
import MatrixCalculator.Proofs.Scalar.Descent

/-!
# The automaton and the recursive descent

An expression is evaluated lexeme by lexeme, with the parts that wait for a value on a
stack.  A recursive descent keeps the same parts in its calls.  Wherever the automaton
awaits an operand, it goes on behind the phrase that the descent reads there with the value
of the phrase, or fails as the descent does: the stack below the phrase is left alone.  The
depth of the calls is the number of groups and arguments on the stack.
-/

namespace MatrixCalculator.Scalar

open Outcome

variable {limit bound : Nat} {closed : Bool} {x : Float} {pending : List Pending}
variable {first : Pending} {lexeme : Lexeme} {lexemes rest : List Lexeme} {op : Operator}

/-! ## What becomes of an expression -/

/-- The value of the whole, where a missing parenthesis may have been forgiven before. -/
def finishFrom (closed : Bool) (progress : Progress) : Except Fault Float :=
  match progress.value with
  | none => .error .unexpectedEnd
  | some x =>
    if progress.pending.countP Pending.isGroup + closed.toNat ≤ 1 then
      .ok (completeAll x progress.pending)
    else .error .unbalancedParentheses

/-- What becomes of an expression that has been read up to some lexemes. -/
def resume (limit : Nat) (closed : Bool) (progress : Progress) (lexemes : List Lexeme) :
    Except Fault Float := do
  finishFrom closed (← lexemes.foldlM (readLexeme limit) progress)

theorem valueOf_eq_resume (limit : Nat) (lexemes : List Lexeme) :
    valueOf limit lexemes = resume limit false .start lexemes := rfl

theorem resume_cons (progress : Progress) :
    resume limit closed progress (lexeme :: rest) =
      (do resume limit closed (← readLexeme limit progress lexeme) rest) := by
  rw [resume, List.foldlM_cons, bind_assoc]
  rfl

/-- Whether the first of some lexemes binds at most so strongly. -/
def StopsAt (strength : Nat) (lexemes : List Lexeme) : Prop :=
  headBinding (lexemes.map Lexeme.token) ≤ strength

theorem resume_complete (hgroup : first.strength ≠ 0) (hstops : StopsAt first.strength lexemes) :
    resume limit closed (.having x (first :: pending)) lexemes =
      resume limit closed (.having (first.complete x) pending) lexemes := by
  cases lexemes with
  | nil =>
    have hclosed : first.isGroup ≠ true := fun h => hgroup (strength_eq_zero_iff.2 h)
    simp only [resume, List.foldlM_nil, pure_eq_ok, ok_bind, finishFrom, Progress.having,
      List.countP_cons_of_neg hclosed]
    rfl
  | cons lexeme lexemes => rw [resume_cons, resume_cons, readLexeme_complete hgroup hstops]

theorem resume_operator (htoken : lexeme.token = .operator op)
    (hweak : headStrength pending < lexeme.token.binding) :
    resume limit closed (.having x pending) (lexeme :: rest) =
      resume limit closed (.awaiting (.binary x op :: pending)) rest := by
  rw [htoken] at hweak
  rw [resume_cons, ← readOperator_eq hweak]
  simp only [readLexeme, readBehind, Progress.having, htoken, ok_bind]

theorem resume_startsFactor (hstarts : lexeme.token.startsFactor = true)
    (hweak : headStrength pending < 2) :
    resume limit closed (.having x pending) (lexeme :: rest) =
      resume limit closed (.awaiting (.binary x .mul :: pending)) (lexeme :: rest) := by
  rw [resume_cons, resume_cons, readLexeme_startsFactor hstarts, readOperator_eq hweak]

/-! ## Agreement -/

/-- What becomes of an expression behind a phrase. -/
def Phrase.resume (limit : Nat) (pending : List Pending) (phrase : Phrase bound) :
    Except Fault Float :=
  Scalar.resume limit phrase.closed (.having phrase.value pending) phrase.rest

/-- Whether a run of the automaton goes on behind the phrase that is read, or fails as the
reading does, and the phrase stops in front of what it should. -/
structure Agrees (limit : Nat) (stops : List Lexeme → Prop) (pending : List Pending)
    (run : Except Fault Float) (reading : Except Fault (Phrase bound)) : Prop where
  run_eq : run = reading >>= Phrase.resume limit pending
  stops : ∀ phrase, reading = .ok phrase → stops phrase.rest

variable {run : Except Fault Float} {reading : Except Fault (Phrase bound)}
variable {stops stops' : List Lexeme → Prop}

theorem agrees_ok {phrase : Phrase bound} (hstops : stops phrase.rest)
    (hrun : run = phrase.resume limit pending) : Agrees limit stops pending run (.ok phrase) :=
  ⟨hrun, by rintro _ ⟨⟩; exact hstops⟩

theorem agrees_error (cause : Fault) :
    Agrees limit stops pending (.error cause) (.error cause : Except Fault (Phrase bound)) :=
  ⟨rfl, nofun⟩

theorem Agrees.bind {outer : List Pending} {bound' : Nat}
    {next : Phrase bound → Except Fault (Phrase bound')}
    (hreading : Agrees limit stops pending run reading)
    (hnext : ∀ phrase, stops phrase.rest →
      Agrees limit stops' outer (phrase.resume limit pending) (next phrase)) :
    Agrees limit stops' outer run (reading >>= next) := by
  obtain ⟨rfl, hstops⟩ := hreading
  cases reading with
  | error cause => exact agrees_error cause
  | ok phrase => exact hnext phrase (hstops phrase rfl)

/-- Whether reading a unary operand agrees with the automaton for up to so many lexemes. -/
def UnaryAgrees (limit count : Nat) : Prop :=
  ∀ pending closed lexemes, lexemes.length ≤ count →
    Agrees limit (StopsAt 2) pending (resume limit closed (.awaiting pending) lexemes)
      (Descent.unary limit (nesting pending) closed lexemes)

/-! ## Operators -/

variable {count : Nat} {step : Float → Float → Float}

theorem exists_of_sumStep? {token : Token} (hstep : Descent.sumStep? token = some step) :
    ∃ op, token = .operator op ∧ token.binding = 1 ∧
      (∀ y, (Pending.binary y op).strength = 1) ∧ step = op.onScalars := by
  cases token with
  | operator op => cases op <;> cases hstep <;> exact ⟨_, rfl, rfl, fun _ => rfl, rfl⟩
  | _ => cases hstep

theorem exists_of_productStep? {token : Token} (hstep : Descent.productStep? token = some step) :
    ∃ op, token = .operator op ∧ token.binding = 2 ∧
      (∀ y, (Pending.binary y op).strength = 2) ∧ step = op.onScalars := by
  cases token with
  | operator op => cases op <;> cases hstep <;> exact ⟨_, rfl, rfl, fun _ => rfl, rfl⟩
  | _ => cases hstep

theorem Phrase.resume_cons {phrase : Phrase bound} (hrest : phrase.rest = lexeme :: rest) :
    phrase.resume limit pending =
      Scalar.resume limit phrase.closed (.having phrase.value pending) (lexeme :: rest) := by
  rw [← hrest]
  rfl

/-- An operator takes the phrase behind it as its right side. -/
theorem Agrees.binary {fewer bound' strength : Nat} {left : Phrase bound}
    {reading : Except Fault (Phrase fewer)} {next : Phrase fewer → Except Fault (Phrase bound')}
    (hreading : Agrees limit (StopsAt strength) (.binary left.value op :: pending) run reading)
    (hstrength : (Pending.binary left.value op).strength = strength)
    (hfewer : fewer ≤ left.rest.length)
    (hnext : ∀ right : Phrase fewer, StopsAt strength right.rest → Agrees limit stops pending
      ((left.upTo right hfewer (op.onScalars left.value right.value)).resume limit pending)
      (next right)) :
    Agrees limit stops pending run (reading >>= next) := by
  refine hreading.bind fun right hstops => ?_
  have hcomplete : right.resume limit (.binary left.value op :: pending) =
      (left.upTo right hfewer (op.onScalars left.value right.value)).resume limit pending := by
    refine resume_complete ?_ (hstrength ▸ hstops)
    rw [Ne, strength_eq_zero_iff]
    exact Bool.false_ne_true
  rw [hcomplete]
  exact hnext right hstops

/-- A lexeme that neither is an operator of products nor starts a factor ends a product. -/
theorem stopsAt_one_of_productStep? (hstops : StopsAt 2 (lexeme :: rest))
    (hstep : Descent.productStep? lexeme.token = none)
    (hstarts : lexeme.token.startsFactor ≠ true) :
    StopsAt 1 (lexeme :: rest) := by
  obtain ⟨token, offset, text⟩ := lexeme
  have hbinding : token.binding ≤ 2 := hstops
  change token.binding ≤ 1
  cases token with
  | operator op => cases op <;> simp_all [Descent.productStep?, Token.binding, Operator.precedence]
  | _ => simp_all [Token.binding, Token.startsFactor]

theorem stopsAt_zero_of_sumStep? (hstops : StopsAt 1 (lexeme :: rest))
    (hstep : Descent.sumStep? lexeme.token = none) : StopsAt 0 (lexeme :: rest) := by
  obtain ⟨token, offset, text⟩ := lexeme
  have hbinding : token.binding ≤ 1 := hstops
  change token.binding ≤ 0
  cases token with
  | operator op => cases op <;> simp_all [Descent.sumStep?, Token.binding, Operator.precedence]
  | _ => simp_all [Token.binding]

theorem agrees_products (hunary : UnaryAgrees limit count) (hpending : headStrength pending ≤ 1)
    (left : Phrase bound) (hcount : left.rest.length ≤ count) (hstops : StopsAt 2 left.rest) :
    Agrees limit (StopsAt 1) pending (left.resume limit pending)
      (Descent.products limit (nesting pending) left) := by
  -- every round leaves fewer lexemes behind the product on the left
  induction hlength : left.rest.length using Nat.strong_induction_on generalizing left with
  | h length ih =>
    subst hlength
    rw [Descent.products]
    split
    · next hrest => exact agrees_ok (by rw [hrest]; exact Nat.zero_le 1) rfl
    next lexeme rest hrest =>
    have hlength : left.rest.length = rest.length + 1 := by rw [hrest, List.length_cons]
    rw [hrest] at hstops
    rw [Phrase.resume_cons hrest]
    split
    · next step hstep =>
      obtain ⟨op, htoken, hbinding, hstrength, rfl⟩ := exists_of_productStep? hstep
      rw [resume_operator htoken (by omega)]
      have hright := hunary (.binary left.value op :: pending) left.closed rest (by omega)
      rw [nesting_binary] at hright
      refine hright.binary (hstrength _) (by omega) fun right hstops => ?_
      have hshorter : right.rest.length < rest.length := right.length_rest_lt
      exact ih _ (by rw [Phrase.rest_upTo]; omega) _ (by rw [Phrase.rest_upTo]; omega) hstops rfl
    next hstep =>
    split
    · next hstarts =>
      rw [resume_startsFactor hstarts (by omega)]
      have hright := hunary (.binary left.value .mul :: pending) left.closed (lexeme :: rest)
        (by rw [List.length_cons]; omega)
      rw [nesting_binary] at hright
      refine hright.binary rfl hlength.ge fun right hstops => ?_
      have hshorter : right.rest.length < rest.length + 1 := right.length_rest_lt
      exact ih _ (by rw [Phrase.rest_upTo]; omega) _ (by rw [Phrase.rest_upTo]; omega) hstops rfl
    · next hstarts =>
      refine agrees_ok ?_ (Phrase.resume_cons hrest).symm
      rw [hrest]
      exact stopsAt_one_of_productStep? hstops hstep hstarts

theorem agrees_multiplicative (hunary : UnaryAgrees limit count)
    (hpending : headStrength pending ≤ 1) (closed : Bool) (hcount : lexemes.length ≤ count) :
    Agrees limit (StopsAt 1) pending (resume limit closed (.awaiting pending) lexemes)
      (Descent.multiplicative limit (nesting pending) closed lexemes) := by
  rw [Descent.multiplicative]
  refine (hunary pending closed lexemes hcount).bind fun first hstops => ?_
  exact agrees_products hunary hpending first (first.length_rest_lt.le.trans hcount) hstops

theorem agrees_sums (hunary : UnaryAgrees limit count) (hpending : headStrength pending = 0)
    (left : Phrase bound) (hcount : left.rest.length ≤ count) (hstops : StopsAt 1 left.rest) :
    Agrees limit (StopsAt 0) pending (left.resume limit pending)
      (Descent.sums limit (nesting pending) left) := by
  induction hlength : left.rest.length using Nat.strong_induction_on generalizing left with
  | h length ih =>
    subst hlength
    rw [Descent.sums]
    split
    · next hrest => exact agrees_ok (by rw [hrest]; exact Nat.zero_le 0) rfl
    next lexeme rest hrest =>
    have hlength : left.rest.length = rest.length + 1 := by rw [hrest, List.length_cons]
    rw [hrest] at hstops
    rw [Phrase.resume_cons hrest]
    split
    · next hstep =>
      refine agrees_ok ?_ (Phrase.resume_cons hrest).symm
      rw [hrest]
      exact stopsAt_zero_of_sumStep? hstops hstep
    next step hstep =>
    obtain ⟨op, htoken, hbinding, hstrength, rfl⟩ := exists_of_sumStep? hstep
    rw [resume_operator htoken (by omega)]
    have hinner : headStrength (.binary left.value op :: pending) ≤ 1 := (hstrength left.value).le
    have hcount : rest.length ≤ count := by omega
    have hright := agrees_multiplicative hunary hinner left.closed hcount
    rw [nesting_binary] at hright
    refine hright.binary (hstrength _) (by omega) fun right hstops => ?_
    have hshorter : right.rest.length < rest.length := right.length_rest_lt
    exact ih _ (by rw [Phrase.rest_upTo]; omega) _ (by rw [Phrase.rest_upTo]; omega) hstops rfl

theorem agrees_additive (hunary : UnaryAgrees limit count) (hpending : headStrength pending = 0)
    (closed : Bool) (hcount : lexemes.length ≤ count) :
    Agrees limit (StopsAt 0) pending (resume limit closed (.awaiting pending) lexemes)
      (Descent.additive limit (nesting pending) closed lexemes) := by
  rw [Descent.additive]
  refine (agrees_multiplicative hunary (by omega) closed hcount).bind fun first hstops => ?_
  exact agrees_sums hunary hpending first (first.length_rest_lt.le.trans hcount) hstops

/-! ## Operands -/

/-- Whether some lexemes start with none of some tokens. -/
def Avoids (refused : List Token) (lexemes : List Lexeme) : Prop :=
  ∀ lexeme rest, lexemes = lexeme :: rest → lexeme.token ∉ refused

theorem avoids_nil (refused : List Token) : Avoids refused [] := by
  rintro _ _ ⟨⟩

theorem avoids_cons {a b : Token} (ha : lexeme.token ≠ a) (hb : lexeme.token ≠ b) :
    Avoids [a, b] (lexeme :: rest) := by
  rintro _ _ ⟨⟩
  rw [List.mem_pair, not_or]
  exact ⟨ha, hb⟩

theorem agrees_suffixes (operand : Phrase bound) :
    Agrees limit (Avoids [.factorial, .percent]) pending (operand.resume limit pending)
      (Descent.suffixes operand) := by
  induction hlength : operand.rest.length using Nat.strong_induction_on generalizing operand with
  | h length ih =>
    subst hlength
    rw [Descent.suffixes]
    split
    · next hrest => exact agrees_ok (by rw [hrest]; exact avoids_nil _) rfl
    next lexeme rest hrest =>
    have hshorter : rest.length < operand.rest.length := by rw [hrest]; exact Nat.lt_succ_self _
    rw [Phrase.resume_cons hrest, resume_cons]
    split
    · next htoken =>
      simp only [readLexeme, readBehind, Progress.having, htoken]
      cases factorialOf operand.value with
      | error cause => exact agrees_error cause
      | ok y => exact ih rest.length hshorter ⟨y, rest, operand.closed, _⟩ rfl
    · next htoken =>
      simp only [readLexeme, readBehind, Progress.having, htoken]
      exact ih rest.length hshorter ⟨operand.value / 100.0, rest, operand.closed, _⟩ rfl
    · next hfactorial hpercent =>
      refine agrees_ok ?_ ?_
      · rw [hrest]
        exact avoids_cons hfactorial hpercent
      · rw [Phrase.resume_cons hrest, resume_cons]

/-- Behind the postfix signs a power may follow. -/
theorem stopsAt_two_of_avoids (hends : Avoids [.factorial, .percent] (lexeme :: rest))
    (hpow : lexeme.token ≠ .operator .pow) : StopsAt 2 (lexeme :: rest) := by
  have hsuffix := hends _ _ rfl
  rw [List.mem_pair, not_or] at hsuffix
  have hthree := Token.binding_le_three lexeme.token
  by_contra hbinding
  have hbinding : ¬lexeme.token.binding ≤ 2 := hbinding
  rcases Token.eq_of_binding_eq_three (show lexeme.token.binding = 3 by omega) with h | h | h
  · exact hsuffix.1 h
  · exact hsuffix.2 h
  · exact hpow h

theorem agrees_power (hunary : UnaryAgrees limit count) (hcount : lexemes.length ≤ count + 1)
    (hprimary : Agrees limit (fun _ => True) pending run
      (Descent.primary limit (nesting pending) closed lexemes)) :
    Agrees limit (StopsAt 2) pending run
      (Descent.power limit (nesting pending) closed lexemes) := by
  rw [Descent.power]
  refine hprimary.bind fun operand _ => (agrees_suffixes operand).bind fun base hends => ?_
  have hlength := base.length_rest_lt
  split
  · next hrest => exact agrees_ok (by rw [hrest]; exact Nat.zero_le 2) rfl
  next lexeme rest hrest =>
  rw [hrest] at hends hlength
  rw [List.length_cons] at hlength
  split
  · next htoken =>
    have hbinding : lexeme.token.binding = 3 := by rw [htoken]; rfl
    have hweak := headStrength_lt_three pending
    rw [Phrase.resume_cons hrest, resume_operator htoken (by omega)]
    have hright := hunary (.binary base.value .pow :: pending) base.closed rest (by omega)
    rw [nesting_binary] at hright
    refine hright.binary rfl (by rw [hrest]; exact Nat.le_succ _) fun exponent hstops => ?_
    exact agrees_ok hstops rfl
  · next hpow =>
    refine agrees_ok ?_ rfl
    rw [hrest]
    exact stopsAt_two_of_avoids hends hpow

/-- Behind a sum in a group stands the parenthesis that closes it, or nothing. -/
theorem agrees_expectClose (inner : Phrase bound) (hstops : StopsAt 0 inner.rest) :
    Agrees limit (fun _ => True) pending (inner.resume limit (.group :: pending))
      (Descent.expectClose inner) := by
  rw [Descent.expectClose]
  split
  · next hrest =>
    have hgroups : (Pending.group :: pending).countP Pending.isGroup =
        pending.countP Pending.isGroup + 1 := List.countP_cons_of_pos rfl
    have hrun : inner.resume limit (.group :: pending) =
        finishFrom inner.closed (.having inner.value (.group :: pending)) := by
      rw [Phrase.resume, hrest]
      rfl
    rw [hrun, finishFrom]
    simp only [Progress.having, hgroups]
    cases inner.closed with
    | true =>
      rw [if_neg (by simp)]
      exact agrees_error _
    | false => exact agrees_ok trivial rfl
  next lexeme rest hrest =>
  rw [hrest] at hstops
  rw [Phrase.resume_cons hrest, resume_cons]
  have hbinding : lexeme.token.binding = 0 := Nat.le_zero.1 hstops
  rcases Token.eq_of_binding_eq_zero hbinding with htoken | ⟨z, htoken⟩
  · simp only [readLexeme, readBehind, Progress.having, htoken]
    exact agrees_ok trivial rfl
  · simp only [readLexeme, readBehind, Progress.having, htoken]
    exact agrees_error _

/-- A part that is opened one level deeper, as far as the limit allows. -/
theorem agrees_nested {inner : Pending}
    (hread : readLexeme limit (.awaiting pending) lexeme = nest limit inner pending)
    (hinner : Agrees limit stops (inner :: pending)
      (resume limit closed (.awaiting (inner :: pending)) rest) reading) :
    Agrees limit stops (inner :: pending) (resume limit closed (.awaiting pending) (lexeme :: rest))
      (if nesting pending + 1 ≤ limit then reading else .error (.nestingTooDeep limit)) := by
  have hnested : nest limit inner pending =
      if nesting pending < limit then .ok (.awaiting (inner :: pending))
      else .error (.nestingTooDeep limit) := rfl
  rw [resume_cons, hread, hnested]
  by_cases hlimit : nesting pending < limit
  · rw [if_pos hlimit, if_pos (Nat.succ_le_of_lt hlimit)]
    exact hinner
  · rw [if_neg hlimit, if_neg (Nat.not_le.2 (Nat.lt_succ_of_le (Nat.le_of_not_lt hlimit)))]
    exact agrees_error _

theorem agrees_primary (hunary : UnaryAgrees limit count) (hcount : lexemes.length ≤ count + 1)
    (hsign : Avoids [.operator .add, .operator .sub] lexemes) :
    Agrees limit (fun _ => True) pending (resume limit closed (.awaiting pending) lexemes)
      (Descent.primary limit (nesting pending) closed lexemes) := by
  cases lexemes with
  | nil =>
    rw [Descent.primary]
    exact agrees_error _
  | cons lexeme rest =>
  rw [List.length_cons, Nat.add_le_add_iff_right] at hcount
  have hread : readLexeme limit (.awaiting pending) lexeme = readOperand limit pending lexeme := rfl
  rw [readOperand] at hread
  rw [Descent.primary]
  split
  · next htoken =>
    rw [htoken] at hread
    rw [resume_cons, hread]
    exact agrees_ok trivial rfl
  · next htoken =>
    rw [htoken] at hread
    rw [resume_cons, hread]
    exact agrees_ok trivial rfl
  · next htoken =>
    rw [htoken] at hread
    have hinner := agrees_additive hunary (show headStrength (.group :: pending) = 0 from rfl)
      closed hcount
    rw [nesting_group] at hinner
    rw [Descent.expression]
    exact (agrees_nested hread hinner).bind agrees_expectClose
  · next f htoken =>
    rw [htoken] at hread
    have hargument := hunary (.argument f :: pending) closed rest hcount
    rw [nesting_argument] at hargument
    rw [Descent.argument]
    refine (agrees_nested hread hargument).bind fun operand hstops => agrees_ok trivial ?_
    exact resume_complete (Nat.succ_ne_zero 1) hstops
  · next hnumber hconstant hparen hfunction =>
    have hfault : readOperand limit pending lexeme = .error (unexpected lexeme) := by
      have hsign := hsign lexeme rest rfl
      rw [readOperand]
      split <;> simp_all
    rw [resume_cons, show readLexeme limit (.awaiting pending) lexeme = _ from hfault]
    exact agrees_error _

theorem unaryAgrees (limit count : Nat) : UnaryAgrees limit count := by
  have hnil : ∀ pending closed, Agrees limit (StopsAt 2) pending
      (resume limit closed (.awaiting pending) [])
      (Descent.unary limit (nesting pending) closed []) := by
    intro pending closed
    rw [Descent.unary, Descent.power, Descent.primary]
    exact agrees_error _
  -- behind a sign, a parenthesis or a function the operands have a lexeme less
  induction count with
  | zero =>
    intro pending closed lexemes hcount
    rw [List.eq_nil_of_length_eq_zero (Nat.le_zero.1 hcount)]
    exact hnil pending closed
  | succ count ih =>
    intro pending closed lexemes hcount
    cases lexemes with
    | nil => exact hnil pending closed
    | cons lexeme rest =>
    have hrest : rest.length ≤ count := Nat.le_of_succ_le_succ hcount
    have hread : readLexeme limit (.awaiting pending) lexeme = readOperand limit pending lexeme :=
      rfl
    rw [readOperand] at hread
    rw [Descent.unary]
    split
    · next htoken =>
      rw [htoken] at hread
      have hoperand := ih (.negation :: pending) closed rest hrest
      rw [nesting_negation] at hoperand
      rw [resume_cons, hread]
      refine hoperand.bind fun operand hstops => agrees_ok hstops ?_
      exact resume_complete (Nat.succ_ne_zero 1) hstops
    · next htoken =>
      rw [htoken] at hread
      rw [resume_cons, hread]
      exact (ih pending closed rest hrest).bind fun operand hstops => agrees_ok hstops rfl
    · next hminus hplus =>
      exact agrees_power ih hcount (agrees_primary ih hcount (avoids_cons hplus hminus))

/-! ## Expressions -/

/-- Reading an expression lexeme by lexeme, with what is pending on a stack, gives the same
value or the same fault as reading it by recursive descent. -/
theorem valueOf_eq_descent (limit : Nat) (lexemes : List Lexeme) :
    valueOf limit lexemes = Descent.valueOf limit lexemes := by
  have hagrees := agrees_additive (unaryAgrees limit lexemes.length)
    (show headStrength [] = 0 from rfl) false le_rfl
  rw [valueOf_eq_resume, Progress.start, ← Progress.awaiting, hagrees.run_eq, Descent.valueOf,
    Descent.expression, if_pos (Nat.zero_le limit)]
  have hdepth : nesting [] = 0 := rfl
  rw [hdepth] at hagrees ⊢
  cases hwhole : Descent.additive limit 0 false lexemes with
  | error cause => rfl
  | ok whole =>
    have hstops := hagrees.stops whole hwhole
    rw [ok_bind, ok_bind]
    split
    · next hrest =>
      rw [Phrase.resume, hrest]
      cases whole.closed <;> rfl
    · next lexeme rest hrest =>
      rw [hrest] at hstops
      rw [Phrase.resume_cons hrest, resume_cons]
      have hbinding : lexeme.token.binding = 0 := Nat.le_zero.1 hstops
      rcases Token.eq_of_binding_eq_zero hbinding with htoken | ⟨z, htoken⟩
      · simp only [readLexeme, readBehind, Progress.having, htoken]
        rfl
      · simp only [readLexeme, readBehind, Progress.having, htoken]
        rfl

end MatrixCalculator.Scalar
