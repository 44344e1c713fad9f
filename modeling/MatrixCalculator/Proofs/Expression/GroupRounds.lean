import MatrixCalculator.Expression.Group
import MatrixCalculator.Expression.Spelling
import MatrixCalculator.Proofs.Expression.Groups
import MatrixCalculator.Proofs.Expression.Nesting
import MatrixCalculator.Proofs.Literal.RoundTrip

/-!
# Rounds over groups, with a record

The rounds that replace groups, with the bodies of the groups put on a record as they are
evaluated.  A round cuts a text into the groups that hold no other one and the text between
them; reading the text with these groups replaced leads to the same end.  So rounds come to
an end with a value only for texts whose parentheses nest, and what they evaluate is one body
for every group.
-/

namespace MatrixCalculator.Expression

open Literal (Recorded record)
open Outcome

/-! ## Rounds among other effects -/

section Effects

variable {M : Type → Type} [Monad M] (evaluate : Text → ExceptT Fault M Text)

/-- `replaceInnermost`, where evaluating can have other effects. -/
def replaceInnermostBy : (pending : Option Text) → Text → ExceptT Fault M (Text × Bool)
  | none, [] => return ([], false)
  | some pending, [] => return ('(' :: pending.reverse, false)
  | none, c :: text => do
    if c = '(' then replaceInnermostBy (some []) text
    else
      let (rest, replaced) ← replaceInnermostBy none text
      return (c :: rest, replaced)
  | some pending, c :: text => do
    if c = '(' then
      let (rest, replaced) ← replaceInnermostBy (some []) text
      return ('(' :: pending.reverse ++ rest, replaced)
    else if c = ')' then
      if pending = [] then throw .emptyParentheses
      let value ← evaluate pending.reverse
      let (rest, _) ← replaceInnermostBy none text
      return (value ++ rest, true)
    else replaceInnermostBy (some (c :: pending)) text

def replaceGroupsBy : (rounds : Nat) → Text → ExceptT Fault M Text
  | 0, text => if '(' ∈ text then throw .unbalancedParentheses else return text
  | rounds + 1, text => do
    if '(' ∈ text then
      let (text, replaced) ← replaceInnermostBy evaluate none text
      if replaced then replaceGroupsBy rounds text else throw .unbalancedParentheses
    else return text

/-- A text with one missing parenthesis closed and the groups replaced by their values. -/
def closeAndResolve (text : Text) : ExceptT Fault M Text := do
  let text ← known (balance text)
  replaceGroupsBy evaluate (text.count '(') text

end Effects

/-- Without other effects these are the rounds of the calculator. -/
theorem replaceInnermostBy_eq (evaluate : Text → Except Fault Text) (pending : Option Text)
    (text : Text) :
    replaceInnermostBy (M := Id) evaluate pending text =
      replaceInnermost evaluate pending text := by
  induction text generalizing pending with
  | nil => cases pending <;> rfl
  | cons c text ih =>
    cases pending <;>
      · simp only [replaceInnermostBy, replaceInnermost, ih, bind_id]
        rfl

theorem replaceGroupsBy_eq (evaluate : Text → Except Fault Text) (rounds : Nat) (text : Text) :
    replaceGroupsBy (M := Id) evaluate rounds text = replaceGroups evaluate rounds text := by
  induction rounds generalizing text with
  | zero => rfl
  | succ rounds ih =>
    simp only [replaceGroupsBy, replaceGroups, replaceInnermostBy_eq, ih, bind_id]
    rfl

theorem closeAndResolve_eq (evaluate : Text → Except Fault Text) (text : Text) :
    closeAndResolve (M := Id) evaluate text = balance text >>= resolveGroups evaluate := by
  simp only [closeAndResolve, replaceGroupsBy_eq, bind_id]
  rfl

/-! ## Records -/

/-- Whether a computation has an outcome and puts certain texts on the record. -/
def Records {α : Type} (x : Recorded α) (outcome : Except Fault α) (calls : List Text) : Prop :=
  ∀ seen, x.run.run seen = (outcome, seen ++ calls)

section Records

variable {α β : Type} {x : Recorded α} {f : α → Recorded β} {a : α} {cause : Fault}
  {outcome : Except Fault β} {calls calls' : List Text}

theorem records_known (result : Except Fault α) : Records (known result) result [] := by
  intro seen
  rw [List.append_nil]
  rfl

theorem Records.bind_ok (hx : Records x (.ok a) calls) (hf : Records (f a) outcome calls') :
    Records (x >>= f) outcome (calls ++ calls') := by
  intro seen
  rw [ExceptT.run_bind, StateT.run_bind, hx seen]
  refine (hf (seen ++ calls)).trans ?_
  rw [List.append_assoc]

theorem Records.bind_error (hx : Records x (.error cause) calls) :
    Records (x >>= f) (.error cause) calls := by
  intro seen
  rw [ExceptT.run_bind, StateT.run_bind, hx seen]
  rfl

end Records

/-- An evaluation that puts the text on the record first. -/
def recorded (evaluate : Text → Except Fault Text) (text : Text) : Recorded Text := do
  record text
  known (evaluate text)

theorem records_recorded (evaluate : Text → Except Fault Text) (text : Text) :
    Records (recorded evaluate text) (evaluate text) [text] := by
  have hrecord : Records (record text) (.ok ()) [text] := fun _ => rfl
  exact hrecord.bind_ok (records_known (evaluate text))

/-! ## Pieces of a round -/

/-- A piece of a text: a group that holds no other one, or text that a round keeps. -/
inductive Piece where
  | kept (text : Text)
  | group (body : Text)

namespace Piece

def text : Piece → Text
  | kept text => text
  | group body => '(' :: (body ++ [')'])

/-- The text that stands in the place of a piece after the round. -/
def shown (value : Text → Text) : Piece → Text
  | kept text => text
  | group body => value body

def body? : Piece → Option Text
  | kept _ => none
  | group body => some body

def resolve {M : Type → Type} [Monad M] (evaluate : Text → ExceptT Fault M Text) :
    Piece → ExceptT Fault M Text
  | kept text => pure text
  | group body => if body = [] then throw .emptyParentheses else evaluate body

end Piece

/-- The pieces of a text behind what has been read since the last parenthesis that opened. -/
def pieces : (pending : Option Text) → Text → List Piece
  | none, [] => []
  | some pending, [] => [.kept ('(' :: pending.reverse)]
  | none, c :: text => if c = '(' then pieces (some []) text else .kept [c] :: pieces none text
  | some pending, c :: text =>
    if c = '(' then .kept ('(' :: pending.reverse) :: pieces (some []) text
    else if c = ')' then .group pending.reverse :: pieces none text
    else pieces (some (c :: pending)) text

def bodies (list : List Piece) : List Text := list.filterMap Piece.body?

@[simp]
theorem bodies_nil : bodies [] = [] := rfl

@[simp]
theorem bodies_kept (text : Text) (list : List Piece) :
    bodies (.kept text :: list) = bodies list := rfl

@[simp]
theorem bodies_group (body : Text) (list : List Piece) :
    bodies (.group body :: list) = body :: bodies list := rfl

section Pieces

variable {pending : Option Text} {text : Text} {list : List Piece}

/-- A round puts the outcomes of the pieces together. -/
theorem replaceInnermostBy_eq_pieces {M : Type → Type} [Monad M] [LawfulMonad M]
    (evaluate : Text → ExceptT Fault M Text) (pending : Option Text) (text : Text) :
    replaceInnermostBy evaluate pending text = do
      let values ← (pieces pending text).mapM (Piece.resolve evaluate)
      return (values.flatten, !(bodies (pieces pending text)).isEmpty) := by
  fun_induction pieces pending text with
  | case1 =>
    rw [replaceInnermostBy, List.mapM_nil, pure_bind]
    rfl
  | case2 pending =>
    simp [replaceInnermostBy, Piece.resolve]
  | case3 text ih =>
    rw [replaceInnermostBy, if_pos rfl, ih]
  | case4 c text hne ih =>
    rw [replaceInnermostBy, if_neg hne, ih]
    simp [Piece.resolve]
  | case5 pending text ih =>
    rw [replaceInnermostBy, if_pos rfl, ih]
    simp [Piece.resolve]
  | case6 pending text hne ih =>
    rw [replaceInnermostBy, if_neg hne, if_pos rfl, ih]
    by_cases hempty : pending = []
    · simp [Piece.resolve, hempty]
    · simp [Piece.resolve, hempty]
  | case7 pending c text hopen hclose ih =>
    rw [replaceInnermostBy, if_neg hopen, if_neg hclose, ih]

theorem flatMap_text_pieces :
    (pieces pending text).flatMap Piece.text = heldBack pending ++ text := by
  fun_induction pieces pending text with
  | case1 => rfl
  | case2 pending => simp [Piece.text, heldBack]
  | case3 text ih => simpa [heldBack] using ih
  | case4 c text hne ih => simpa [heldBack, Piece.text] using ih
  | case5 pending text ih => simpa [heldBack, Piece.text] using ih
  | case6 pending text hne ih => simpa [heldBack, Piece.text] using ih
  | case7 pending c text hopen hclose ih => simpa [heldBack] using ih

/-- No body holds a parenthesis. -/
theorem free_of_mem_bodies (hpending : ∀ held, pending = some held → '(' ∉ held ∧ ')' ∉ held)
    {body : Text} (hbody : body ∈ bodies (pieces pending text)) : '(' ∉ body ∧ ')' ∉ body := by
  fun_induction pieces pending text with
  | case1 => cases hbody
  | case2 pending => cases hbody
  | case3 text ih => exact ih (by simp) hbody
  | case4 c text hne ih => exact ih nofun hbody
  | case5 pending text ih => exact ih (by simp) hbody
  | case6 pending text hne ih =>
    rcases List.mem_cons.1 hbody with rfl | hbody
    · simpa using hpending pending rfl
    · exact ih nofun hbody
  | case7 pending c text hopen hclose ih =>
    refine ih ?_ hbody
    rintro _ ⟨⟩
    obtain ⟨hopen', hclose'⟩ := hpending pending rfl
    exact ⟨List.not_mem_cons_of_ne_of_not_mem (Ne.symm hopen) hopen',
      List.not_mem_cons_of_ne_of_not_mem (Ne.symm hclose) hclose'⟩

/-- Without a group among the pieces no parenthesis closes behind one that opened. -/
theorem exists_of_bodies_eq_nil (hbodies : bodies (pieces pending text) = []) :
    ∃ left right, text = left ++ right ∧ '(' ∉ left ∧ ')' ∉ right ∧
      (pending.isSome → left = []) := by
  fun_induction pieces pending text with
  | case1 => exact ⟨[], [], rfl, by simp, by simp, nofun⟩
  | case2 pending => exact ⟨[], [], rfl, by simp, by simp, fun _ => rfl⟩
  | case3 text ih =>
    obtain ⟨left, right, rfl, -, hright, hleft⟩ := ih hbodies
    rw [hleft rfl, List.nil_append]
    exact ⟨[], '(' :: right, rfl, by simp, by simpa using hright, nofun⟩
  | case4 c text hne ih =>
    obtain ⟨left, right, rfl, hleft, hright, -⟩ := ih hbodies
    exact ⟨c :: left, right, rfl, List.not_mem_cons_of_ne_of_not_mem (Ne.symm hne) hleft, hright,
      nofun⟩
  | case5 pending text ih =>
    obtain ⟨left, right, rfl, -, hright, hleft⟩ := ih hbodies
    rw [hleft rfl, List.nil_append]
    exact ⟨[], '(' :: right, rfl, by simp, by simpa using hright, fun _ => rfl⟩
  | case6 pending text hne ih => cases hbodies
  | case7 pending c text hopen hclose ih =>
    obtain ⟨left, right, rfl, -, hright, hleft⟩ := ih hbodies
    rw [hleft rfl, List.nil_append]
    exact ⟨[], c :: right, rfl, by simp, List.not_mem_cons_of_ne_of_not_mem (Ne.symm hclose) hright,
      fun _ => rfl⟩

end Pieces

/-! ## The outcome of a round -/

/-- The value of a body, and a digit where there is none. -/
def valueOf (evaluate : Text → Except Fault Text) (body : Text) : Text :=
  (evaluate body).toOption.getD ['0']

section Rounds

variable {evaluate : Text → Except Fault Text} {text : Text} {list : List Piece}

theorem valueOf_eq {body value : Text} (hvalue : evaluate body = .ok value) :
    valueOf evaluate body = value := by
  rw [valueOf, hvalue]
  rfl

theorem KeepsBodies.valueOf (hevaluate : KeepsBodies evaluate) :
    KeepsBodies fun body => .ok (valueOf evaluate body) := by
  rintro body _ hbody ⟨⟩
  cases hvalue : evaluate body with
  | error cause =>
    have hdigit : Expression.valueOf evaluate body = ['0'] := by
      rw [Expression.valueOf, hvalue]
      rfl
    rw [hdigit]
    exact ⟨by decide, by decide, by decide⟩
  | ok value =>
    rw [valueOf_eq hvalue]
    exact hevaluate body value hbody hvalue

/-- How a round ends that evaluates the groups among some pieces: with the values of all of
them, or with a fault. -/
inductive Ends (evaluate : Text → Except Fault Text) (list : List Piece) (calls : List Text) :
    Except Fault (List Text) → Prop
  | values (hcalls : calls = bodies list)
      (hvalues : ∀ call ∈ calls, evaluate call = .ok (valueOf evaluate call)) :
      Ends evaluate list calls (.ok (list.map (Piece.shown (valueOf evaluate))))
  | fault {cause : Fault} {call : Text} (hcall : call ∈ calls)
      (hfault : evaluate call = .error cause) : Ends evaluate list calls (.error cause)
  | empty (hempty : [] ∈ bodies list) : Ends evaluate list calls (.error .emptyParentheses)

theorem Ends.kept {calls : List Text} {outcome : Except Fault (List Text)}
    (hends : Ends evaluate list calls outcome) (text : Text) :
    Ends evaluate (.kept text :: list) calls (List.cons text <$> outcome) := by
  cases hends with
  | values hcalls hvalues => exact .values hcalls hvalues
  | fault hcall hfault => exact .fault hcall hfault
  | empty hempty => exact .empty hempty

theorem Ends.group {calls : List Text} {outcome : Except Fault (List Text)} {body value : Text}
    (hends : Ends evaluate list calls outcome) (hvalue : evaluate body = .ok value) :
    Ends evaluate (.group body :: list) (body :: calls) (List.cons value <$> outcome) := by
  cases hends with
  | values hcalls hvalues =>
    cases valueOf_eq hvalue
    exact .values (congrArg _ hcalls) (List.forall_mem_cons.2 ⟨hvalue, hvalues⟩)
  | fault hcall hfault => exact .fault (List.mem_cons_of_mem _ hcall) hfault
  | empty hempty => exact .empty (List.mem_cons_of_mem _ hempty)

theorem Records.map {α β : Type} {x : Recorded α} {outcome : Except Fault α} {calls : List Text}
    (hx : Records x outcome calls) (f : α → β) : Records (f <$> x) (f <$> outcome) calls := by
  intro seen
  rw [ExceptT.run_map, StateT.run_map, hx seen]
  cases outcome <;> rfl

/-- Pieces are evaluated one after the other, up to the first fault. -/
theorem exists_records_mapM (evaluate : Text → Except Fault Text) (list : List Piece) :
    ∃ (outcome : Except Fault (List Text)) (calls : List Text),
      list.mapM (Piece.resolve (M := Id) evaluate) = outcome ∧
      Records (list.mapM (Piece.resolve (recorded evaluate))) outcome calls ∧
      (∀ call ∈ calls, call ≠ [] ∧ call ∈ bodies list) ∧ Ends evaluate list calls outcome := by
  induction list with
  | nil => exact ⟨.ok [], [], rfl, records_known _, nofun, .values rfl nofun⟩
  | cons piece list ih =>
    obtain ⟨outcome, calls, houtcome, hrecords, hcalls, hends⟩ := ih
    cases piece with
    | kept text =>
      refine ⟨List.cons text <$> outcome, calls, ?_, ?_, hcalls, hends.kept text⟩
      · rw [List.mapM_cons, houtcome]
        cases outcome <;> rfl
      · rw [List.mapM_cons, Piece.resolve, pure_bind, ← map_eq_pure_bind]
        exact hrecords.map _
    | group body =>
      by_cases hempty : body = []
      · refine ⟨.error .emptyParentheses, [], ?_, ?_, nofun, .empty (by simp [hempty])⟩
        · rw [List.mapM_cons, Piece.resolve, if_pos hempty]
          rfl
        · rw [List.mapM_cons, Piece.resolve, if_pos hempty]
          exact (records_known (.error .emptyParentheses)).bind_error
      · cases hvalue : evaluate body with
        | error cause =>
          refine ⟨.error cause, [body], ?_, ?_, by simp [hempty],
            .fault (List.mem_singleton_self body) hvalue⟩
          · rw [List.mapM_cons, Piece.resolve, if_neg hempty, hvalue]
            rfl
          · rw [List.mapM_cons, Piece.resolve, if_neg hempty]
            have hbody := records_recorded evaluate body
            rw [hvalue] at hbody
            exact hbody.bind_error
        | ok value =>
          refine ⟨List.cons value <$> outcome, body :: calls, ?_, ?_, ?_, hends.group hvalue⟩
          · rw [List.mapM_cons, Piece.resolve, if_neg hempty, hvalue, houtcome]
            cases outcome <;> rfl
          · rw [List.mapM_cons, Piece.resolve, if_neg hempty]
            have hbody := records_recorded evaluate body
            rw [hvalue] at hbody
            refine hbody.bind_ok ?_
            rw [← map_eq_pure_bind]
            exact hrecords.map _
          · refine List.forall_mem_cons.2 ⟨⟨hempty, List.mem_cons_self⟩, fun call hcall => ?_⟩
            exact ⟨(hcalls call hcall).1, List.mem_cons_of_mem _ (hcalls call hcall).2⟩

/-! ## Reading what a round leaves -/

section Readings

variable {value : Text → Text} {r : Reading}

/-- Reading a text leads where reading leads behind a round. -/
theorem advance_pieces (hvalue : KeepsBodies fun body => .ok (value body))
    (hbodies : ∀ body ∈ bodies list, IsBody body) :
    r.advance value (list.flatMap Piece.text) =
      (r.advance value (list.map (Piece.shown value)).flatten).map (·.record ↑(bodies list)) := by
  induction list generalizing r with
  | nil =>
    rw [List.flatMap_nil, List.map_nil, List.flatten_nil, Reading.advance_nil, Option.map_some,
      Reading.record, bodies_nil, Multiset.coe_nil, zero_add]
  | cons piece list ih =>
    rw [List.flatMap_cons, List.map_cons, List.flatten_cons, Reading.advance_append,
      Reading.advance_append]
    cases piece with
    | kept text =>
      rw [Piece.text, Piece.shown]
      cases r.advance value text with
      | none => rfl
      | some next => exact ih hbodies
    | group body =>
      obtain ⟨hbody, hbodies⟩ := List.forall_mem_cons.1 hbodies
      have hshown := hvalue body _ hbody rfl
      rw [Piece.text, Piece.shown, Reading.advance_group hbody,
        Reading.advance_free hshown.no_open hshown.no_close, Option.bind_some, Option.bind_some,
        Reading.advance_record, ih hbodies, Option.map_map]
      refine congrArg (Option.map · _) (funext fun last => ?_)
      rw [Function.comp_apply, Reading.record_record, bodies_group, ← Multiset.cons_coe,
        ← Multiset.singleton_add]

/-- An empty group ends the reading. -/
theorem advance_eq_none_of_empty (hempty : [] ∈ bodies list) :
    r.advance value (list.flatMap Piece.text) = none := by
  induction list generalizing r with
  | nil => cases hempty
  | cons piece list ih =>
    rw [List.flatMap_cons, Reading.advance_append]
    rcases piece with text | body
    · cases r.advance value (Piece.kept text).text with
      | none => rfl
      | some next => exact ih hempty
    · rcases List.mem_cons.1 hempty with rfl | hempty
      · rfl
      · cases r.advance value (Piece.group body).text with
        | none => rfl
        | some next => exact ih hempty

/-- As many parentheses close as open, but none behind one that opened: this ends the
reading. -/
theorem advance_eq_none_of_no_group (hcount : text.count '(' = text.count ')') (hopen : '(' ∈ text)
    (hbodies : bodies (pieces none text) = []) (houter : r.outer = []) :
    r.advance value text = none := by
  obtain ⟨left, right, rfl, hleft, hright, -⟩ := exists_of_bodies_eq_nil hbodies
  have hpositive := List.count_pos_iff.2 hopen
  rw [List.count_append, List.count_append, List.count_eq_zero_of_not_mem hleft,
    List.count_eq_zero_of_not_mem hright, zero_add, add_zero] at hcount
  rw [List.count_append, List.count_eq_zero_of_not_mem hleft, zero_add, hcount] at hpositive
  rw [Reading.advance_append,
    Reading.advance_eq_none hleft (List.count_pos_iff.1 hpositive) houter, Option.bind_none]

end Readings

/-- Every group that is replaced takes one parenthesis of each kind away. -/
theorem count_pieces {value : Text → Text} (hvalue : KeepsBodies fun body => .ok (value body))
    (hbodies : ∀ body ∈ bodies list, IsBody body) {c : Char} (hc : c = '(' ∨ c = ')') :
    (list.flatMap Piece.text).count c =
      (list.map (Piece.shown value)).flatten.count c + (bodies list).length := by
  induction list with
  | nil => rfl
  | cons piece list ih =>
    rw [List.flatMap_cons, List.map_cons, List.flatten_cons, List.count_append, List.count_append]
    cases piece with
    | kept text =>
      rw [ih hbodies, Piece.text, Piece.shown, bodies_kept, add_assoc]
    | group body =>
      obtain ⟨hbody, hbodies⟩ := List.forall_mem_cons.1 hbodies
      have hshown := hvalue body _ hbody rfl
      have hgroup : (Piece.group body).text.count c = 1 := by
        rw [Piece.text, List.count_cons, List.count_append, hbody.count_eq_zero hc]
        rcases hc with rfl | rfl <;> rfl
      rw [ih hbodies, hgroup, Piece.shown, hshown.count_eq_zero hc, bodies_group,
        List.length_cons]
      omega

/-! ## All rounds -/

/-- How the rounds end: with a value to which the text is read, or with a fault. -/
inductive Concludes (evaluate : Text → Except Fault Text) (text : Text) (calls : List Text) :
    Except Fault Text → Prop
  | value {value : Text} (hvalues : ∀ call ∈ calls, evaluate call = .ok (valueOf evaluate call))
      (hread : Reading.start.advance (valueOf evaluate) text = some ⟨[], value, ↑calls⟩) :
      Concludes evaluate text calls (.ok value)
  | fault {cause : Fault} {call : Text} (hcall : call ∈ calls)
      (hfault : evaluate call = .error cause) : Concludes evaluate text calls (.error cause)
  | misplaced {cause : Fault} (hread : Reading.start.advance (valueOf evaluate) text = none) :
      Concludes evaluate text calls (.error cause)

/-- A round with a group is followed by more rounds on what it leaves. -/
theorem replaceGroupsBy_succ {M : Type → Type} [Monad M] [LawfulMonad M]
    (evaluate : Text → ExceptT Fault M Text) (rounds : Nat) (hopen : '(' ∈ text) :
    replaceGroupsBy evaluate (rounds + 1) text = (do
      let values ← (pieces none text).mapM (Piece.resolve evaluate)
      if bodies (pieces none text) = [] then throw .unbalancedParentheses
      else replaceGroupsBy evaluate rounds values.flatten) := by
  rw [replaceGroupsBy, if_pos hopen, replaceInnermostBy_eq_pieces, bind_assoc]
  refine congrArg _ (funext fun values => ?_)
  rw [pure_bind]
  cases bodies (pieces none text) <;> rfl

/-- How the rounds end on what a round leaves is how they end on the text. -/
theorem Concludes.behind {next : Text} {calls more : List Text} {outcome : Except Fault Text}
    (hnext : Concludes evaluate next more outcome)
    (hvalues : ∀ call ∈ calls, evaluate call = .ok (valueOf evaluate call))
    (hread : Reading.start.advance (valueOf evaluate) text =
      (Reading.start.advance (valueOf evaluate) next).map (·.record ↑calls)) :
    Concludes evaluate text (calls ++ more) outcome := by
  cases hnext with
  | value hmore hnextRead =>
    refine .value (List.forall_mem_append.2 ⟨hvalues, hmore⟩) ?_
    rw [hread, hnextRead, Option.map_some, Reading.record, Multiset.coe_add]
  | fault hcall hfault => exact .fault (List.mem_append_right _ hcall) hfault
  | misplaced hnextRead =>
    refine .misplaced ?_
    rw [hread, hnextRead, Option.map_none]

/-- Text without parentheses that open is the value of any rounds. -/
theorem replaceGroupsBy_of_not_mem {M : Type → Type} [Monad M]
    (evaluate : Text → ExceptT Fault M Text) (rounds : Nat) (hopen : '(' ∉ text) :
    replaceGroupsBy evaluate rounds text = known (.ok text) := by
  cases rounds <;> exact if_neg hopen

theorem exists_records_of_not_mem {rounds : Nat} (hcount : text.count '(' = text.count ')')
    (hopen : '(' ∉ text) :
    ∃ (outcome : Except Fault Text) (calls : List Text),
      replaceGroupsBy (M := Id) evaluate rounds text = outcome ∧
      Records (replaceGroupsBy (recorded evaluate) rounds text) outcome calls ∧
      (∀ call ∈ calls, IsBody call) ∧ Concludes evaluate text calls outcome := by
  have hclose : ')' ∉ text := by
    rwa [← List.count_eq_zero, ← hcount, List.count_eq_zero]
  refine ⟨.ok text, [], replaceGroupsBy_of_not_mem _ rounds hopen, ?_, nofun,
    .value nofun (Reading.advance_free hopen hclose)⟩
  rw [replaceGroupsBy_of_not_mem _ rounds hopen]
  exact records_known (.ok text)

/-- The rounds on a text evaluate nothing but bodies, and end with a fault where a body has
none, or where parentheses are misplaced. -/
theorem exists_records_replaceGroups (hevaluate : KeepsBodies evaluate) {rounds : Nat}
    (hcount : text.count '(' = text.count ')') (hrounds : text.count '(' ≤ rounds) :
    ∃ (outcome : Except Fault Text) (calls : List Text),
      replaceGroupsBy (M := Id) evaluate rounds text = outcome ∧
      Records (replaceGroupsBy (recorded evaluate) rounds text) outcome calls ∧
      (∀ call ∈ calls, IsBody call) ∧ Concludes evaluate text calls outcome := by
  induction rounds generalizing text with
  | zero =>
    have hopen : '(' ∉ text := List.count_eq_zero.1 (Nat.le_zero.1 hrounds)
    exact exists_records_of_not_mem hcount hopen
  | succ rounds ih =>
    by_cases hopen : '(' ∈ text
    swap
    · exact exists_records_of_not_mem hcount hopen
    obtain ⟨outcome, calls, houtcome, hrecords, hcalls, hends⟩ :=
      exists_records_mapM evaluate (pieces none text)
    have htext : (pieces none text).flatMap Piece.text = text := flatMap_text_pieces
    have hbodies : ∀ call ∈ calls, IsBody call := fun call hcall =>
      have hfree := free_of_mem_bodies (by simp) (hcalls call hcall).2
      ⟨(hcalls call hcall).1, hfree.1, hfree.2⟩
    rw [replaceGroupsBy_succ _ _ hopen, replaceGroupsBy_succ _ _ hopen, houtcome]
    cases hends with
    | values hlist hvalues =>
      by_cases hnone : bodies (pieces none text) = []
      · have hread : Reading.start.advance (valueOf evaluate) text = none :=
          advance_eq_none_of_no_group hcount hopen hnone rfl
        refine ⟨.error .unbalancedParentheses, calls ++ [], if_pos hnone, ?_,
          by simpa using hbodies, .misplaced hread⟩
        refine hrecords.bind_ok ?_
        rw [if_pos hnone]
        exact records_known (.error .unbalancedParentheses)
      · subst hlist
        have hvalue := hevaluate.valueOf
        have hread := advance_pieces (r := Reading.start) hvalue hbodies
        have hless := List.length_pos_iff.2 hnone
        have hopens := count_pieces hvalue hbodies (.inl rfl)
        have hcloses := count_pieces hvalue hbodies (.inr rfl)
        rw [htext] at hread hopens hcloses
        obtain ⟨outcome, more, hnext, hrecordsNext, hmore, hconcludes⟩ :=
          @ih ((pieces none text).map (Piece.shown (valueOf evaluate))).flatten (by omega)
            (by omega)
        refine ⟨outcome, _, (if_neg hnone).trans hnext, hrecords.bind_ok ?_,
          List.forall_mem_append.2 ⟨hbodies, hmore⟩, hconcludes.behind hvalues hread⟩
        rw [if_neg hnone]
        exact hrecordsNext
    | fault hcall hfault =>
      exact ⟨_, calls, rfl, hrecords.bind_error, hbodies, .fault hcall hfault⟩
    | empty hempty =>
      have hread : Reading.start.advance (valueOf evaluate) text = none := by
        rw [← htext]
        exact advance_eq_none_of_empty hempty
      exact ⟨_, calls, rfl, hrecords.bind_error, hbodies, .misplaced hread⟩

end Rounds

end MatrixCalculator.Expression
