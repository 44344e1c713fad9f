import MatrixCalculator.Fault
import MatrixCalculator.Proofs.Outcome
import Mathlib.Data.Multiset.Basic
import Mathlib.Tactic

/-!
# Nested groups

Texts whose parentheses nest with something in every group, and what is evaluated for such a
text: every group once, with the groups inside replaced by their values.  A text can be read
from left to right with a stack of what stands in front of the groups that are open.  This
reading comes to an end exactly for nested texts, and it goes on in the same way behind a
group and behind the value of the group.
-/

namespace MatrixCalculator.Expression

/-- Whether a text can be evaluated as the body of a group: there is something in it, and no
parenthesis. -/
structure IsBody (text : Text) : Prop where
  ne_nil : text ≠ []
  no_open : '(' ∉ text
  no_close : ')' ∉ text

theorem IsBody.count_eq_zero {text : Text} {c : Char} (htext : IsBody text)
    (hc : c = '(' ∨ c = ')') : text.count c = 0 := by
  rcases hc with rfl | rfl
  · exact List.count_eq_zero_of_not_mem htext.no_open
  · exact List.count_eq_zero_of_not_mem htext.no_close

/-- Texts whose parentheses nest, with something in every group. -/
inductive IsNested : Text → Prop
  | nil : IsNested []
  | char {c : Char} {rest : Text} (hopen : c ≠ '(') (hclose : c ≠ ')') (hrest : IsNested rest) :
      IsNested (c :: rest)
  | group {inside rest : Text} (hinside : IsNested inside) (hne : inside ≠ [])
      (hrest : IsNested rest) : IsNested ('(' :: (inside ++ ')' :: rest))

/-- The value of a nested text, and the bodies that are evaluated for it: one for every group,
which is the value of what stands inside. -/
inductive Resolves (evaluate : Text → Except Fault Text) : Text → Text → List Text → Prop
  | nil : Resolves evaluate [] [] []
  | char {c : Char} {rest value : Text} {bodies : List Text} (hopen : c ≠ '(') (hclose : c ≠ ')')
      (hrest : Resolves evaluate rest value bodies) :
      Resolves evaluate (c :: rest) (c :: value) bodies
  | group {inside body rest value result : Text} {inner outer : List Text}
      (hinside : Resolves evaluate inside body inner) (hne : inside ≠ [])
      (hvalue : evaluate body = .ok value) (hrest : Resolves evaluate rest result outer) :
      Resolves evaluate ('(' :: (inside ++ ')' :: rest)) (value ++ result)
        (inner ++ body :: outer)

section Grammar

variable {evaluate evaluate' : Text → Except Fault Text} {text value : Text} {bodies : List Text}

theorem Resolves.isNested (htext : Resolves evaluate text value bodies) : IsNested text := by
  induction htext with
  | nil => exact .nil
  | char hopen hclose _ ih => exact .char hopen hclose ih
  | group _ hne _ _ ihinside ihrest => exact .group ihinside hne ihrest

/-- There is one body for every group. -/
theorem Resolves.length_bodies (htext : Resolves evaluate text value bodies) :
    bodies.length = text.count '(' := by
  induction htext with
  | nil => rfl
  | char hopen _ _ ih => rw [ih, List.count_cons_of_ne hopen]
  | group _ _ _ _ ihinside ihrest =>
    rw [List.length_append, List.length_cons, ihinside, ihrest, List.count_cons_self,
      List.count_append, List.count_cons_of_ne (by decide)]
    rfl

theorem Resolves.ne_nil (htext : Resolves evaluate text value bodies) (hvalue : value ≠ []) :
    text ≠ [] := by
  rintro rfl
  cases htext
  exact hvalue rfl

/-- Only the values of the bodies matter. -/
theorem Resolves.congr (htext : Resolves evaluate text value bodies)
    (hsame : ∀ body ∈ bodies, evaluate' body = evaluate body) :
    Resolves evaluate' text value bodies := by
  induction htext with
  | nil => exact .nil
  | char hopen hclose _ ih => exact .char hopen hclose (ih hsame)
  | group _ hne hvalue _ ihinside ihrest =>
    obtain ⟨hinner, hsame⟩ := List.forall_mem_append.1 hsame
    obtain ⟨hbody, houter⟩ := List.forall_mem_cons.1 hsame
    exact .group (ihinside hinner) hne (hbody.trans hvalue) (ihrest houter)

/-- Nested texts hold as many parentheses that open as ones that close. -/
theorem IsNested.count_eq (htext : IsNested text) : text.count '(' = text.count ')' := by
  induction htext with
  | nil => rfl
  | char hopen hclose _ ih => rw [List.count_cons_of_ne hopen, List.count_cons_of_ne hclose, ih]
  | group _ _ _ ihinside ihrest =>
    rw [List.count_cons_self, List.count_cons_of_ne (by decide), List.count_append,
      List.count_append, List.count_cons_self, List.count_cons_of_ne (by decide), ihinside, ihrest]
    rfl

theorem IsNested.exists_resolves (htext : IsNested text) (value : Text → Text) :
    ∃ shown bodies, Resolves (fun body => .ok (value body)) text shown bodies := by
  induction htext with
  | nil => exact ⟨_, _, .nil⟩
  | char hopen hclose _ ih =>
    obtain ⟨shown, bodies, hrest⟩ := ih
    exact ⟨_, _, .char hopen hclose hrest⟩
  | group _ hne _ ihinside ihrest =>
    obtain ⟨body, inner, hinside⟩ := ihinside
    obtain ⟨shown, outer, hrest⟩ := ihrest
    exact ⟨_, _, .group hinside hne rfl hrest⟩

/-- Whether the values of bodies can be bodies again. -/
def KeepsBodies (evaluate : Text → Except Fault Text) : Prop :=
  ∀ body value, IsBody body → evaluate body = .ok value → IsBody value

/-- No parenthesis is left, and nothing else than bodies is evaluated. -/
theorem Resolves.free (hevaluate : KeepsBodies evaluate)
    (htext : Resolves evaluate text value bodies) :
    '(' ∉ value ∧ ')' ∉ value ∧ (text ≠ [] → value ≠ []) ∧ ∀ body ∈ bodies, IsBody body := by
  induction htext with
  | nil => exact ⟨List.not_mem_nil, List.not_mem_nil, id, nofun⟩
  | char hopen hclose _ ih =>
    obtain ⟨hopen', hclose', -, hbodies⟩ := ih
    exact ⟨List.not_mem_cons_of_ne_of_not_mem (Ne.symm hopen) hopen',
      List.not_mem_cons_of_ne_of_not_mem (Ne.symm hclose) hclose', fun _ => List.cons_ne_nil _ _,
      hbodies⟩
  | group _ hne hvalue _ ihinside ihrest =>
    obtain ⟨hopen, hclose, hnonempty, hinner⟩ := ihinside
    obtain ⟨hopen', hclose', -, houter⟩ := ihrest
    have hbody : IsBody _ := ⟨hnonempty hne, hopen, hclose⟩
    have hshown := hevaluate _ _ hbody hvalue
    refine ⟨?_, ?_, fun _ => List.append_ne_nil_of_left_ne_nil hshown.ne_nil _, ?_⟩
    · exact List.not_mem_append hshown.no_open hopen'
    · exact List.not_mem_append hshown.no_close hclose'
    · exact List.forall_mem_append.2 ⟨hinner, List.forall_mem_cons.2 ⟨hbody, houter⟩⟩

end Grammar

/-! ## Readings -/

/-- A text that has been read up to a place: what stands in front of the groups that are open,
the innermost one first, what has been read since the last one opened, and the bodies that
have been evaluated. -/
@[ext]
structure Reading where
  outer : List Text
  current : Text
  bodies : Multiset Text

namespace Reading

def start : Reading := ⟨[], [], 0⟩

def extend (r : Reading) (text : Text) : Reading := { r with current := r.current ++ text }

def record (r : Reading) (bodies : Multiset Text) : Reading :=
  { r with bodies := bodies + r.bodies }

variable (value : Text → Text) (r : Reading)

def step (c : Char) : Option Reading :=
  if c = '(' then some ⟨r.current :: r.outer, [], r.bodies⟩
  else if c = ')' then
    match r.outer with
    | [] => none
    | front :: outer =>
      if r.current = [] then none
      else some ⟨outer, front ++ value r.current, {r.current} + r.bodies⟩
  else some (r.extend [c])

def advance (text : Text) : Option Reading := text.foldlM (step value) r

variable {value r} {text left right : Text} {bodies : Multiset Text}

theorem advance_nil : r.advance value [] = some r := rfl

theorem advance_cons (c : Char) :
    r.advance value (c :: text) = (r.step value c).bind fun r => r.advance value text := rfl

theorem advance_append :
    r.advance value (left ++ right) =
      (r.advance value left).bind fun r => r.advance value right := List.foldlM_append ..

theorem step_open : r.step value '(' = some ⟨r.current :: r.outer, [], r.bodies⟩ := rfl

theorem step_of_ne {c : Char} (hopen : c ≠ '(') (hclose : c ≠ ')') :
    r.step value c = some (r.extend [c]) := by
  rw [step, if_neg hopen, if_neg hclose]

theorem step_close {front current : Text} {outer : List Text} (hcurrent : current ≠ []) :
    step value ⟨front :: outer, current, bodies⟩ ')' =
      some ⟨outer, front ++ value current, {current} + bodies⟩ := by
  rw [step, if_neg (by decide), if_pos rfl]
  exact if_neg hcurrent

theorem extend_extend : (r.extend left).extend right = r.extend (left ++ right) := by
  rw [extend, extend, extend, List.append_assoc]

theorem record_record {more : Multiset Text} :
    (r.record bodies).record more = r.record (more + bodies) := by
  rw [record, record, record, add_assoc]

/-- Text without parentheses is read as it is. -/
theorem advance_free (hopen : '(' ∉ text) (hclose : ')' ∉ text) :
    r.advance value text = some (r.extend text) := by
  induction text generalizing r with
  | nil =>
    rw [advance_nil, extend, List.append_nil]
  | cons c text ih =>
    rw [List.mem_cons, not_or] at hopen hclose
    rw [advance_cons, step_of_ne (Ne.symm hopen.1) (Ne.symm hclose.1), Option.bind_some,
      ih hopen.2 hclose.2, extend_extend, List.singleton_append]

/-- A group without groups inside is read as its value. -/
theorem advance_group (htext : IsBody text) :
    r.advance value ('(' :: (text ++ [')'])) =
      some ((r.extend (value text)).record {text}) := by
  rw [advance_cons, step_open, Option.bind_some, advance_append,
    advance_free htext.no_open htext.no_close, Option.bind_some, extend, List.nil_append,
    advance_cons, step_close htext.ne_nil]
  rfl

theorem step_record (c : Char) :
    (r.record bodies).step value c = (r.step value c).map (·.record bodies) := by
  by_cases hopen : c = '('
  · rw [hopen]
    rfl
  by_cases hclose : c = ')'
  · subst hclose
    obtain ⟨_ | ⟨front, outer⟩, current, seen⟩ := r
    · rfl
    rcases eq_or_ne current [] with rfl | hcurrent
    · rfl
    · rw [record, step_close hcurrent, step_close hcurrent, Option.map_some, record,
        add_left_comm]
  · rw [step_of_ne hopen hclose, step_of_ne hopen hclose]
    rfl

/-- Bodies that have been evaluated make no difference for what follows. -/
theorem advance_record :
    (r.record bodies).advance value text = (r.advance value text).map (·.record bodies) := by
  induction text generalizing r with
  | nil => rfl
  | cons c text ih =>
    rw [advance_cons, advance_cons, step_record]
    cases r.step value c with
    | none => rfl
    | some next => exact ih

/-- A parenthesis that closes nothing ends the reading. -/
theorem advance_eq_none (hopen : '(' ∉ text) (hclose : ')' ∈ text) (houter : r.outer = []) :
    r.advance value text = none := by
  induction text generalizing r with
  | nil => cases hclose
  | cons c text ih =>
    rw [List.mem_cons, not_or] at hopen
    rw [advance_cons]
    by_cases hc : c = ')'
    · rw [step, if_neg (Ne.symm hopen.1), if_pos hc, houter]
      rfl
    · rw [step_of_ne (Ne.symm hopen.1) hc]
      exact ih hopen.2 ((List.mem_cons.1 hclose).resolve_left (Ne.symm hc)) houter

/-! ## Readings that come to an end -/

/-- A nested text is read from any place on, and leaves no group open. -/
theorem advance_of_resolves {shown : Text} {seen : List Text}
    (hvalue : KeepsBodies fun body => .ok (value body))
    (htext : Resolves (fun body => .ok (value body)) text shown seen) :
    r.advance value text = some ((r.extend shown).record seen) := by
  generalize hresolves : (fun body => .ok (value body) : Text → Except Fault Text) = evaluate
    at htext hvalue
  induction htext generalizing r with
  | nil =>
    rw [advance_nil, extend, List.append_nil, record, Multiset.coe_nil, zero_add]
  | char hopen hclose _ ih =>
    rw [advance_cons, step_of_ne hopen hclose, Option.bind_some, ih, extend_extend,
      List.singleton_append]
  | @group inside body rest value' result inner outer hinside hne hbody _ ihinside ihrest =>
    subst hresolves
    cases hbody
    have hnonempty := (hinside.free hvalue).2.2.1 hne
    have hclose : step value ⟨r.current :: r.outer, [] ++ body, ↑inner + r.bodies⟩ ')' = _ :=
      step_close hnonempty
    rw [advance_cons, step_open, Option.bind_some, advance_append, ihinside, Option.bind_some,
      advance_cons, extend, record, hclose, Option.bind_some, ihrest]
    simp only [extend, record, List.append_assoc, List.nil_append, Option.some.injEq,
      Reading.mk.injEq, true_and, ← Multiset.coe_add, ← Multiset.cons_coe,
      ← Multiset.singleton_add]
    abel

/-- A reading that closes a group: what is read up to there is nested. -/
theorem exists_inside {front current : Text} {outer : List Text} {last : Reading}
    (hread : advance value ⟨front :: outer, current, bodies⟩ text = some last)
    (hlast : last.outer.length ≤ outer.length) :
    ∃ inside body inner rest, text = inside ++ ')' :: rest ∧
      Resolves (fun body => .ok (value body)) inside body inner ∧ current ++ body ≠ [] ∧
      advance value
          ⟨outer, front ++ value (current ++ body), {current ++ body} + (↑inner + bodies)⟩ rest =
        some last := by
  induction hlength : text.length using Nat.strong_induction_on
    generalizing text front current outer bodies with
  | h length ih =>
    cases text with
    | nil =>
      cases hread
      exact absurd hlast (by simp)
    | cons c text =>
      subst hlength
      rw [advance_cons] at hread
      by_cases hopen : c = '('
      · subst hopen
        rw [step_open, Option.bind_some] at hread
        obtain ⟨inside, body, inner, rest, rfl, hinside, hbody, hrest⟩ :=
          ih text.length (by simp) hread (hlast.trans (by simp)) rfl
        obtain ⟨inside', body', inner', rest', rfl, hinside', hbody', hrest'⟩ :=
          ih rest.length (by simp; omega) hrest hlast rfl
        rw [List.nil_append] at hbody hrest
        rw [List.append_assoc] at hbody' hrest'
        have hbodies : (↑(inner ++ body :: inner') : Multiset Text) + bodies =
            ↑inner' + ({body} + (↑inner + bodies)) := by
          rw [← Multiset.coe_add, ← Multiset.cons_coe, ← Multiset.singleton_add]
          abel
        refine ⟨'(' :: (inside ++ ')' :: inside'), value body ++ body', inner ++ body :: inner',
          rest', by simp, .group hinside (hinside.ne_nil hbody) rfl hinside', hbody', ?_⟩
        rw [hbodies]
        exact hrest'
      · by_cases hclose : c = ')'
        · subst hclose
          rcases eq_or_ne current [] with rfl | hcurrent
          · cases hread
          rw [step_close hcurrent, Option.bind_some] at hread
          refine ⟨[], [], [], text, rfl, .nil, by simpa using hcurrent, ?_⟩
          rw [List.append_nil, Multiset.coe_nil, zero_add]
          exact hread
        · rw [step_of_ne hopen hclose, Option.bind_some] at hread
          obtain ⟨inside, body, inner, rest, rfl, hinside, hbody, hrest⟩ :=
            ih text.length (by simp) hread hlast rfl
          rw [List.append_assoc] at hbody hrest
          exact ⟨c :: inside, c :: body, inner, rest, rfl, .char hopen hclose hinside, hbody, hrest⟩

/-- A reading that leaves no group open is that of a nested text. -/
theorem exists_resolves {current : Text} {last : Reading}
    (hread : advance value ⟨[], current, bodies⟩ text = some last) (hlast : last.outer = []) :
    ∃ shown seen, Resolves (fun body => .ok (value body)) text shown seen ∧
      last.current = current ++ shown ∧ last.bodies = ↑seen + bodies := by
  induction hlength : text.length using Nat.strong_induction_on
    generalizing text current bodies with
  | h length ih =>
    cases text with
    | nil =>
      cases hread
      exact ⟨[], [], .nil, (List.append_nil _).symm, (zero_add _).symm⟩
    | cons c text =>
      subst hlength
      rw [advance_cons] at hread
      by_cases hopen : c = '('
      · subst hopen
        rw [step_open, Option.bind_some] at hread
        obtain ⟨inside, body, inner, rest, rfl, hinside, hbody, hrest⟩ :=
          exists_inside hread (by rw [hlast])
        obtain ⟨shown, seen, hresolves, hcurrent, hseen⟩ :=
          ih rest.length (by simp; omega) hrest rfl
        rw [List.nil_append] at hbody hcurrent hseen
        refine ⟨value body ++ shown, inner ++ body :: seen,
          .group hinside (hinside.ne_nil hbody) rfl hresolves, ?_, ?_⟩
        · rw [hcurrent, List.append_assoc]
        · rw [hseen, ← Multiset.coe_add, ← Multiset.cons_coe, ← Multiset.singleton_add]
          abel
      · by_cases hclose : c = ')'
        · subst hclose
          cases hread
        · rw [step_of_ne hopen hclose, Option.bind_some] at hread
          obtain ⟨shown, seen, hresolves, hcurrent, hseen⟩ := ih text.length (by simp) hread rfl
          refine ⟨c :: shown, seen, .char hopen hclose hresolves, ?_, hseen⟩
          rw [hcurrent, List.append_assoc, List.singleton_append]

end Reading

end MatrixCalculator.Expression
