import MatrixCalculator.Proofs.Expression.Balance
import MatrixCalculator.Proofs.Expression.GroupRounds

/-!
# Evaluation with a record of its calls

The passes over an expression, over any effects that the evaluation one level deeper may have
and with any solver for the operands without brackets.  Without effects these are the passes
of the calculator.  With a record as the effect they put every expression that is evaluated
on it, together with its depth.
-/

namespace MatrixCalculator.Expression

open Outcome Text

/-! ## Passes among other effects -/

section Effects

variable {M : Type → Type} [Monad M]

/-- `canonicalizeLiterals`, where evaluating can have other effects. -/
def canonicalizeLiteralsBy (separators : Separators) (evaluate : Text → ExceptT Fault M Text)
    (text : Text) : ExceptT Fault M Text :=
  match hopen : cut? Literal.opening text with
  | none => return text
  | some (before, inside) =>
    match hclose : cut? Literal.closing inside with
    | none => throw (.malformedLiteral (Literal.opening ++ inside))
    | some (body, rest) => do
      have : rest.length < text.length :=
        Nat.lt_trans (length_lt_of_cut? (by decide) hclose) (length_lt_of_cut? (by decide) hopen)
      let m ← Literal.read separators evaluate (Literal.opening ++ body ++ Literal.closing)
      return before ++ Literal.write m ++ (← canonicalizeLiteralsBy separators evaluate rest)
termination_by text.length

variable (evaluate : Text → ExceptT Fault M Text)

def Mark.applyFirstBy (mark : Mark) : (count : Nat) → Text → ExceptT Fault M Text
  | 0, text => return text
  | count + 1, text =>
    match cut? mark.text text with
    | none => return text
    | some (head, tail) =>
      match literalBefore? head with
      | none => throw (.danglingPostfix mark.name)
      | some (before, literal) => do
        let m ← Literal.read Separators.canonical evaluate literal
        let value ← known (mark.apply m)
        applyFirstBy mark count (before ++ Literal.write value ++ tail)

def Application.operandBy (argument : Text) : ExceptT Fault M Operand :=
  if startsWith Literal.opening argument then
    .matrix <$> Literal.read Separators.canonical evaluate argument
  else
    match Numeral.read? argument with
    | some x => return .scalar x
    | none => throw (.fieldNotNumeric argument)

def Application.replaceBy (a : Application) : ExceptT Fault M Text := do
  let operand ← operandBy evaluate a.argument
  let value ← known (Operand.apply a.function operand)
  let text := value.write
  if Text.contains Numeral.notANumberWord text then throw .notANumber
  return a.before ++ (if followsFactor a.before then [Symbol.times] else []) ++ text ++ a.after

def Application.replaceFirstBy : (count : Nat) → Text → ExceptT Fault M Text
  | 0, text => return text
  | count + 1, text =>
    match first? text with
    | none => return text
    | some application => do replaceFirstBy count (← application.replaceBy evaluate)

variable (solve : Text → Except Fault Float)

/-- `operand`, with any solver and where evaluating can have other effects. -/
def operandBy (text : Text) : ExceptT Fault M Operand :=
  if startsWith Literal.opening text then
    .matrix <$> Literal.read Separators.canonical evaluate text
  else .scalar <$> known (solve text)

def reduceTextBy (text : Text) : ExceptT Fault M Text := do
  let chain := Chain.split text
  if chain.isAtom then return text
  else
    let operands ← chain.operands.mapM (operandBy evaluate solve)
    let value ← known (Chain.reduce Operator.apply ⟨operands, chain.operators⟩)
    return value.write

/-- The passes over an expression in which no group is left, with any solver and where
evaluating can have other effects. -/
def flatPassesBy (text : Text) : ExceptT Fault M Text := do
  let text ← Mark.transpose.applyFirstBy evaluate text.length text
  let text ← Mark.inverse.applyFirstBy evaluate text.length text
  let text ← Application.replaceFirstBy evaluate text.length text
  reduceTextBy evaluate solve (spellConstants none text)

def passesBy (text : Text) : ExceptT Fault M Text := do
  let text ← canonicalizeLiteralsBy Separators.canonical evaluate text
  let text ← known (spellFactorials false (spellPercents none text))
  let text ← closeAndResolve evaluate text
  flatPassesBy evaluate solve text

end Effects

section Literals

variable {M : Type → Type} [Monad M] {separators : Separators}
  {evaluate : Text → ExceptT Fault M Text} {text before inside body rest : Text}

theorem canonicalizeLiteralsBy_of_no_opening (hopen : cut? Literal.opening text = none) :
    canonicalizeLiteralsBy separators evaluate text = pure text := by
  rw [canonicalizeLiteralsBy]
  split
  · rfl
  · next hsome =>
    rw [hopen] at hsome
    cases hsome

theorem canonicalizeLiteralsBy_of_no_closing
    (hopen : cut? Literal.opening text = some (before, inside))
    (hclose : cut? Literal.closing inside = none) :
    canonicalizeLiteralsBy separators evaluate text =
      throw (.malformedLiteral (Literal.opening ++ inside)) := by
  rw [canonicalizeLiteralsBy]
  split
  · next hnone =>
    rw [hopen] at hnone
    cases hnone
  · next hsome =>
    rw [hopen] at hsome
    cases hsome
    split
    · rfl
    · next hfound =>
      rw [hclose] at hfound
      cases hfound

theorem canonicalizeLiteralsBy_of_cut?
    (hopen : cut? Literal.opening text = some (before, inside))
    (hclose : cut? Literal.closing inside = some (body, rest)) :
    canonicalizeLiteralsBy separators evaluate text = (do
      let m ← Literal.read separators evaluate (Literal.opening ++ body ++ Literal.closing)
      return before ++ Literal.write m ++ (← canonicalizeLiteralsBy separators evaluate rest)) := by
  rw [canonicalizeLiteralsBy]
  split
  · next hnone =>
    rw [hopen] at hnone
    cases hnone
  · next hsome =>
    rw [hopen] at hsome
    cases hsome
    split
    · next hmissing =>
      rw [hclose] at hmissing
      cases hmissing
    · next hfound =>
      rw [hclose] at hfound
      cases hfound
      rfl

end Literals

/-! ## Without other effects -/

section Effectless

variable (evaluate : Text → Except Fault Text)

/-- Without other effects a value is mapped in the same way. -/
theorem fmap_id {α β : Type} (f : α → β) (x : Except Fault α) :
    @Functor.map (ExceptT Fault Id) _ α β f x = f <$> x := by
  cases x <;> rfl

theorem known_id {α : Type} (x : Except Fault α) : known (M := Id) x = x := rfl

theorem readFields_id (fields : List Text) :
    Literal.readFields (M := ExceptT Fault Id) evaluate fields =
      Literal.readFields evaluate fields := by
  induction fields with
  | nil => rfl
  | cons field fields ih =>
    simp only [Literal.readFields, ih, bind_id]
    rfl

theorem readRows_id (width : Nat) (rows : List (List Text)) :
    Literal.readRows (M := ExceptT Fault Id) evaluate width rows =
      Literal.readRows evaluate width rows := by
  induction rows with
  | nil => rfl
  | cons fields rows ih =>
    simp only [Literal.readRows, ih, readFields_id, bind_id]
    rfl

theorem read_id (separators : Separators) (text : Text) :
    Literal.read (M := ExceptT Fault Id) separators evaluate text =
      Literal.read separators evaluate text := by
  simp only [Literal.read, readRows_id, bind_id]
  rfl

theorem canonicalizeLiteralsBy_id (separators : Separators) (text : Text) :
    canonicalizeLiteralsBy (M := Id) separators evaluate text =
      canonicalizeLiterals separators evaluate text := by
  induction text using literalParts.induct with
  | case1 text hopen =>
    rw [canonicalizeLiteralsBy_of_no_opening hopen, canonicalizeLiterals_of_no_opening hopen]
    rfl
  | case2 text before inside hopen hclose =>
    rw [canonicalizeLiteralsBy_of_no_closing hopen hclose,
      canonicalizeLiterals_of_no_closing hopen hclose]
    rfl
  | case3 text before inside hopen body rest hclose _ ih =>
    rw [canonicalizeLiteralsBy_of_cut? hopen hclose, canonicalizeLiterals_of_cut? hopen hclose,
      ih, read_id]
    simp only [bind_id]
    rfl

theorem Mark.applyFirstBy_id (mark : Mark) (count : Nat) (text : Text) :
    mark.applyFirstBy (M := Id) evaluate count text = mark.applyFirst evaluate count text := by
  induction count generalizing text with
  | zero => rfl
  | succ count ih =>
    simp only [applyFirstBy, applyFirst, ih, read_id, bind_id]
    rfl

theorem Application.operandBy_id (argument : Text) :
    operandBy (M := Id) evaluate argument = operand evaluate argument := by
  simp only [operandBy, operand, read_id, fmap_id]
  rfl

theorem Application.replaceBy_id (a : Application) :
    a.replaceBy (M := Id) evaluate = a.replace evaluate := by
  simp only [replaceBy, replace, operandBy_id, known_id, bind_id]
  rfl

theorem Application.replaceFirstBy_id (count : Nat) (text : Text) :
    replaceFirstBy (M := Id) evaluate count text = replaceFirst evaluate count text := by
  induction count generalizing text with
  | zero => rfl
  | succ count ih =>
    simp only [replaceFirstBy, replaceFirst, ih, replaceBy_id, bind_id]
    rfl

variable (limit : Nat)

theorem operandBy_id (text : Text) :
    operandBy (M := Id) evaluate (Scalar.evaluate limit) text = operand limit evaluate text := by
  simp only [operandBy, operand, read_id, known_id, fmap_id]

theorem reduceTextBy_id (text : Text) :
    reduceTextBy (M := Id) evaluate (Scalar.evaluate limit) text =
      reduceText limit evaluate text := by
  have hmapM (operands : List Text) :
      (operands.mapM (operandBy evaluate (Scalar.evaluate limit)) : ExceptT Fault Id _) =
        operands.mapM (operand limit evaluate) := by
    induction operands with
    | nil => rfl
    | cons text operands ih =>
      rw [List.mapM_cons, List.mapM_cons, ih, operandBy_id]
      simp only [bind_id]
      rfl
  simp only [reduceTextBy, reduceText, hmapM, bind_id]
  rfl

theorem passesBy_id (text : Text) :
    passesBy (M := Id) evaluate (Scalar.evaluate limit) text = passes limit evaluate text := by
  simp only [passesBy, flatPassesBy, passes, canonicalizeLiteralsBy_id, closeAndResolve_eq,
    Mark.applyFirstBy_id, Application.replaceFirstBy_id, reduceTextBy_id, bind_id, known_id,
    Mark.applyAll, Application.replaceAll, bind_assoc]

end Effectless

/-! ## Calls -/

/-- An expression that is evaluated, with the number of expressions around it. -/
structure Call where
  depth : Nat
  text : Text
  deriving DecidableEq, Repr

section Calls

variable {M : Type → Type} [Monad M] (note : Call → ExceptT Fault M Unit)
  (solve : Text → Except Fault Float) (limit : Nat)

/-- `resolve`, with any solver and where every call can have an effect first. -/
def resolveBy : (levels : Nat) → Text → ExceptT Fault M Text
  | 0, text => do
    note ⟨limit + 1, text⟩
    throw (.nestingTooDeep limit)
  | levels + 1, text => do
    note ⟨limit - levels, text⟩
    passesBy (resolveBy levels) solve text

/-- `evaluate`, with any solver and where every call can have an effect first. -/
def evaluateBy (separators : Separators) (text : Text) : ExceptT Fault M Text := do
  let entered := Display.enter separators text
  let canonical ← canonicalizeLiteralsBy separators (resolveBy note solve limit limit) entered
  let resolved ← resolveBy note solve limit (limit + 1) canonical
  let value ← operandBy (resolveBy note solve limit limit) solve resolved
  if Text.contains Numeral.notANumberWord value.write then throw .notANumber
  else return value.write

end Calls

def silent (_ : Call) : ExceptT Fault Id Unit := pure ()

theorem resolveBy_silent (limit levels : Nat) :
    resolveBy silent (Scalar.evaluate limit) limit levels = resolve limit levels := by
  induction levels with
  | zero => rfl
  | succ levels ih =>
    funext text
    rw [resolveBy, ih, passesBy_id, silent, bind_id]
    rfl

/-- With the solver of the calculator and no effects this is the evaluation of the
calculator. -/
theorem evaluateBy_silent (limit : Nat) (separators : Separators) (text : Text) :
    evaluateBy silent (Scalar.evaluate limit) limit separators text =
      evaluate limit separators text := by
  simp only [evaluateBy, evaluate, resolveBy_silent, canonicalizeLiteralsBy_id, operandBy_id,
    bind_id]
  rfl

/-! ## Records of calls -/

abbrev Traced : Type → Type := ExceptT Fault (StateM (List Call))

def trace (call : Call) : Traced Unit := modify (· ++ [call])

/-- Whether a computation with a record has the outcome of one without, and puts nothing on
the record than certain calls. -/
def Traces {α : Type} (P : Call → Prop) (x : Traced α) (y : ExceptT Fault Id α) : Prop :=
  ∀ seen, ∃ calls, x.run.run seen = (y.run, seen ++ calls) ∧ ∀ call ∈ calls, P call

section Traces

variable {α β : Type} {P Q : Call → Prop} {x : Traced α} {y : ExceptT Fault Id α}
  {f : α → Traced β} {g : α → ExceptT Fault Id β}

theorem traces_known (result : Except Fault α) : Traces P (known result) (known result) :=
  fun seen => ⟨[], by rw [List.append_nil]; rfl, nofun⟩

theorem traces_pure (a : α) : Traces P (pure a) (pure a) := traces_known (.ok a)

theorem traces_throw (cause : Fault) : Traces P (throw cause : Traced α) (throw cause) :=
  traces_known (.error cause)

theorem traces_trace (call : Call) (hcall : P call) : Traces P (trace call) (silent call) :=
  fun seen => ⟨[call], rfl, by simpa using hcall⟩

theorem Traces.mono (hx : Traces P x y) (hmono : ∀ call, P call → Q call) : Traces Q x y := by
  intro seen
  obtain ⟨calls, hrun, hcalls⟩ := hx seen
  exact ⟨calls, hrun, fun call hcall => hmono call (hcalls call hcall)⟩

theorem Traces.and (hP : Traces P x y) (hQ : Traces Q x y) :
    Traces (fun call => P call ∧ Q call) x y := by
  intro seen
  obtain ⟨calls, hrun, hcalls⟩ := hP seen
  obtain ⟨calls', hrun', hcalls'⟩ := hQ seen
  rw [hrun, Prod.mk.injEq, List.append_cancel_left_eq] at hrun'
  obtain ⟨-, rfl⟩ := hrun'
  exact ⟨calls, hrun, fun call hcall => ⟨hcalls call hcall, hcalls' call hcall⟩⟩

/-- The second step matters only where the first one has a value. -/
theorem Traces.bind (hx : Traces P x y) (hf : ∀ a, y.run = .ok a → Traces P (f a) (g a)) :
    Traces P (x >>= f) (y >>= g) := by
  intro seen
  obtain ⟨calls, hrun, hcalls⟩ := hx seen
  rw [ExceptT.run_bind, StateT.run_bind, hrun, ExceptT.run_bind]
  cases hy : y.run with
  | error cause => exact ⟨calls, rfl, hcalls⟩
  | ok a =>
    obtain ⟨calls', hrun', hcalls'⟩ := hf a hy (seen ++ calls)
    refine ⟨calls ++ calls', ?_, List.forall_mem_append.2 ⟨hcalls, hcalls'⟩⟩
    rw [← List.append_assoc]
    exact hrun'

/-- Behind a fault nothing is called. -/
theorem traces_throw_bind (cause : Fault) :
    Traces P ((throw cause : Traced α) >>= f) ((throw cause : ExceptT Fault Id α) >>= g) := by
  refine (traces_throw cause).bind fun a hvalue => ?_
  cases hvalue

theorem Traces.map (hx : Traces P x y) (h : α → β) : Traces P (h <$> x) (h <$> y) := by
  rw [map_eq_pure_bind, map_eq_pure_bind]
  exact hx.bind fun a _ => traces_pure (h a)

theorem Traces.ite {condition : Prop} [Decidable condition] {x' : Traced α}
    {y' : ExceptT Fault Id α} (hx : condition → Traces P x y) (hx' : ¬condition → Traces P x' y') :
    Traces P (if condition then x else x') (if condition then y else y') := by
  by_cases h : condition
  · rw [if_pos h, if_pos h]
    exact hx h
  · rw [if_neg h, if_neg h]
    exact hx' h

/-- A part of a list matters only where all parts in front of it have a value. -/
theorem traces_mapM {parts : List α}
    (hparts : ∀ left part right, parts = left ++ part :: right →
      (∀ part ∈ left, ∃ value, (g part).run = .ok value) → Traces P (f part) (g part)) :
    Traces P (parts.mapM f) (parts.mapM g) := by
  induction parts with
  | nil => exact traces_pure []
  | cons part parts ih =>
    rw [List.mapM_cons, List.mapM_cons]
    refine (hparts [] part parts rfl nofun).bind fun value hvalue => ?_
    refine (ih fun left next right hsplit hleft => ?_).bind fun values _ => traces_pure _
    refine hparts (part :: left) next right (by rw [hsplit, List.cons_append]) ?_
    exact List.forall_mem_cons.2 ⟨⟨value, hvalue⟩, hleft⟩

end Traces

/-! ## Calls for the fields of a literal -/

/-- Whether all fields in front of one are read as numbers. -/
def IsReached (evaluate : Text → Except Fault Text) (fields : List Text) (field : Text) : Prop :=
  ∃ left right, fields = left ++ field :: right ∧
    ∀ field ∈ left, ∃ value x, evaluate field = .ok value ∧ Numeral.read? value = some x

section Fields

variable {P : Call → Prop} {e' : Text → Traced Text} {e : Text → Except Fault Text}
  {field : Text} {fields : List Text}

theorem isReached_head (field : Text) (fields : List Text) :
    IsReached e (field :: fields) field := ⟨[], fields, rfl, nofun⟩

theorem IsReached.append {right : List Text} (hreached : IsReached e right field)
    (left : List Text)
    (hleft : ∀ field ∈ left, ∃ value x, e field = .ok value ∧ Numeral.read? value = some x) :
    IsReached e (left ++ right) field := by
  obtain ⟨before, after, rfl, hbefore⟩ := hreached
  exact ⟨left ++ before, after, by simp, List.forall_mem_append.2 ⟨hleft, hbefore⟩⟩

theorem IsReached.mem (hreached : IsReached e fields field) : field ∈ fields := by
  obtain ⟨left, right, rfl, -⟩ := hreached
  simp

theorem traces_readFields
    (hfields : ∀ field, IsReached e fields field → Traces P (e' field) (e field)) :
    Traces P (Literal.readFields e' fields)
      (Literal.readFields (M := ExceptT Fault Id) e fields) := by
  induction fields with
  | nil => exact traces_pure []
  | cons field fields ih =>
    rw [Literal.readFields, Literal.readFields]
    refine Traces.ite (fun _ => traces_throw_bind _) fun _ => ?_
    refine (hfields field (isReached_head field fields)).bind fun value hvalue => ?_
    cases hread : Numeral.read? value with
    | none => exact traces_throw _
    | some x =>
      refine (ih fun next hnext => hfields next ?_).bind fun row _ => traces_pure _
      exact hnext.append [field] (by simpa using ⟨value, hvalue, x, hread⟩)

theorem traces_readRows {width : Nat} {rows : List (List Text)}
    (hfields : ∀ field, IsReached e rows.flatten field → Traces P (e' field) (e field)) :
    Traces P (Literal.readRows e' width rows)
      (Literal.readRows (M := ExceptT Fault Id) e width rows) := by
  induction rows with
  | nil => exact traces_pure []
  | cons fields rows ih =>
    rw [Literal.readRows, Literal.readRows]
    refine Traces.ite (fun _ => traces_throw_bind _) fun _ => ?_
    have hrow : ∀ field, IsReached e fields field → Traces P (e' field) (e field) := by
      rintro field ⟨left, right, rfl, hleft⟩
      exact hfields field ⟨left, right ++ rows.flatten, by simp, hleft⟩
    refine (traces_readFields hrow).bind fun row hvalue => ?_
    rw [readFields_id] at hvalue
    refine (ih fun next hnext => hfields next ?_).bind fun lines _ => traces_pure _
    rw [List.flatten_cons]
    exact hnext.append fields fun field hfield =>
      Literal.exists_number_of_readFields hvalue hfield

theorem traces_read {separators : Separators} {text : Text}
    (hfields : ∀ interior, text = Literal.opening ++ interior ++ Literal.closing → ∀ field,
      IsReached e (Literal.fieldsOf separators interior).flatten field →
        Traces P (e' field) (e field)) :
    Traces P (Literal.read separators e' text)
      (Literal.read (M := ExceptT Fault Id) separators e text) := by
  rw [Literal.read, Literal.read]
  cases hinterior : Literal.interior? text with
  | none => exact traces_throw _
  | some interior =>
    exact (traces_readRows (hfields interior (Literal.interior?_eq_some_iff.1 hinterior))).bind
      fun rows _ => traces_pure _

theorem traces_canonicalizeLiterals {separators : Separators} {text : Text}
    (hfields : ∀ field, field <:+: text → ¬Literal.closing <:+: field →
      Traces P (e' field) (e field)) :
    Traces P (canonicalizeLiteralsBy separators e' text)
      (canonicalizeLiteralsBy (M := Id) separators e text) := by
  induction text using literalParts.induct with
  | case1 text hopen =>
    rw [canonicalizeLiteralsBy_of_no_opening hopen, canonicalizeLiteralsBy_of_no_opening hopen]
    exact traces_pure text
  | case2 text before inside hopen hclose =>
    rw [canonicalizeLiteralsBy_of_no_closing hopen hclose,
      canonicalizeLiteralsBy_of_no_closing hopen hclose]
    exact traces_throw _
  | case3 text before inside hopen body rest hclose _ ih =>
    rw [canonicalizeLiteralsBy_of_cut? hopen hclose, canonicalizeLiteralsBy_of_cut? hopen hclose]
    have hclosing : ¬Literal.closing <:+: body := not_isInfix_of_cut? (by decide) hclose
    have htext : text = before ++ Literal.opening ++ body ++ Literal.closing ++ rest := by
      rw [eq_append_of_cut? hopen, eq_append_of_cut? hclose]
      simp
    have hbody : body <:+: text :=
      ⟨before ++ Literal.opening, Literal.closing ++ rest, by simp [htext]⟩
    have hrest : rest <:+: text := ⟨before ++ Literal.opening ++ body ++ Literal.closing, [], by
      rw [htext, List.append_nil]⟩
    refine (traces_read fun interior hinterior field hreached => ?_).bind fun m _ => ?_
    · have hinterior : interior = body := by simpa using hinterior.symm
      subst hinterior
      have hfield := isInfix_of_mem_fieldsOf hreached.mem
      exact hfields field (hfield.trans hbody) fun h => hclosing (h.trans hfield)
    · exact (ih fun field hfield => hfields field (hfield.trans hrest)).bind fun tail _ =>
        traces_pure _

end Fields

/-! ## Calls for the bodies of groups -/

section Groups

variable {P : Call → Prop} {e' : Text → Traced Text} {e : Text → Except Fault Text}

theorem traces_replaceInnermost (hbodies : ∀ body, '(' ∉ body → Traces P (e' body) (e body))
    (text : Text) :
    Traces P (replaceInnermostBy e' none text) (replaceInnermostBy (M := Id) e none text) := by
  rw [replaceInnermostBy_eq_pieces, replaceInnermostBy_eq_pieces]
  refine (traces_mapM fun left piece right hsplit _ => ?_).bind fun values _ => traces_pure _
  cases piece with
  | kept text => exact traces_pure text
  | group body =>
    have hmem : body ∈ bodies (pieces none text) := by
      rw [hsplit, bodies, List.mem_filterMap]
      exact ⟨.group body, by simp, rfl⟩
    have hbody := (free_of_mem_bodies (by simp) hmem).1
    exact Traces.ite (fun _ => traces_throw _) fun _ => hbodies body hbody

/-- Groups are replaced from the inside out, so no body holds another group. -/
theorem traces_closeAndResolve (hbodies : ∀ body, '(' ∉ body → Traces P (e' body) (e body))
    (text : Text) :
    Traces P (closeAndResolve e' text) (closeAndResolve (M := Id) e text) := by
  refine (traces_known (balance text)).bind fun closed hclosed => ?_
  clear hclosed
  -- the rounds are counted once, while the text changes from round to round
  generalize closed.count '(' = rounds
  induction rounds generalizing closed with
  | zero => exact Traces.ite (fun _ => traces_throw _) fun _ => traces_pure closed
  | succ rounds ih =>
    refine Traces.ite (fun _ => ?_) fun _ => traces_pure closed
    refine (traces_replaceInnermost hbodies closed).bind fun ⟨next, replaced⟩ _ => ?_
    exact Traces.ite (fun _ => ih next) fun _ => traces_throw _

end Groups

end MatrixCalculator.Expression
