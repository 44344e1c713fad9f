import MatrixCalculator.Proofs.Expression.Groups

/-!
# Groups in groups

A text with groups is a tree: groups stand between texts without parentheses, and what is
in a group may have groups again.  The rounds replace innermost groups from all over the
text, the tree is replaced from the inside out and from the left to the right.  As long as
no group fails in another way than the others, the order makes no difference.
-/

namespace MatrixCalculator

open Outcome Text

/-- A text with groups: one without parentheses, or such a text, a group and what follows. -/
inductive Nested where
  | plain (text : Text)
  | group (before : Text) (inner rest : Nested)

namespace Nested

def text : Nested → Text
  | plain text => text
  | group before inner rest => before ++ ('(' :: (inner.text ++ ')' :: rest.text))

def size : Nested → Nat
  | plain _ => 0
  | group _ inner rest => inner.size + rest.size + 1

def prepend (front : Text) : Nested → Nested
  | plain text => plain (front ++ text)
  | group before inner rest => group (front ++ before) inner rest

section Evaluation

variable (evaluate : Text → Except Fault Text)

/-- The text with its groups replaced, from the inside out. -/
def flatten : Nested → Except Fault Text
  | plain text => .ok text
  | group before inner rest => do
    let value ← evaluate (← inner.flatten)
    return before ++ (value ++ (← rest.flatten))

/-- One round: every innermost group is replaced. -/
def collapse : Nested → Except Fault Nested
  | plain text => .ok (plain text)
  | group before (plain body) rest => do
    let value ← evaluate body
    return (← rest.collapse).prepend (before ++ value)
  | group before (group before' inner rest') rest => do
    let inner ← (group before' inner rest').collapse
    return group before inner (← rest.collapse)

/-- Whether no other fault than one can come from a group, and no parentheses. -/
def IsSound (cause : Fault) : Nested → Prop
  | plain text => '(' ∉ text ∧ ')' ∉ text
  | group before inner rest =>
    ('(' ∉ before ∧ ')' ∉ before) ∧ inner.IsSound cause ∧ rest.IsSound cause ∧
      ∀ body, inner.flatten evaluate = .ok body → body ≠ [] ∧
        FailsOnlyWith cause (evaluate body) ∧ ∀ value, evaluate body = .ok value →
          '(' ∉ value ∧ ')' ∉ value

end Evaluation

variable {evaluate : Text → Except Fault Text} {cause : Fault} {t t' inner rest : Nested}
  {before front : Text}

theorem text_prepend (front : Text) (t : Nested) : (t.prepend front).text = front ++ t.text := by
  cases t with
  | plain text => rfl
  | group before inner rest => exact List.append_assoc ..

theorem size_prepend (front : Text) (t : Nested) : (t.prepend front).size = t.size := by
  cases t <;> rfl

theorem flatten_prepend (front : Text) (t : Nested) :
    (t.prepend front).flatten evaluate = (front ++ ·) <$> t.flatten evaluate := by
  cases t with
  | plain text => rfl
  | group before inner rest => simp [prepend, flatten, map_eq_pure_bind]

theorem IsSound.prepend (ht : t.IsSound evaluate cause) (hopen : '(' ∉ front)
    (hclose : ')' ∉ front) : (t.prepend front).IsSound evaluate cause := by
  cases t with
  | plain text => simpa [Nested.prepend, IsSound, hopen, hclose] using ht
  | group before inner rest =>
    obtain ⟨hbefore, hothers⟩ := ht
    exact ⟨by simpa [hopen, hclose] using hbefore, hothers⟩

/-! ## Rounds and the tree -/

theorem failsOnlyWith_flatten (ht : t.IsSound evaluate cause) :
    FailsOnlyWith cause (t.flatten evaluate) := by
  induction t with
  | plain text => exact failsOnlyWith_ok cause text
  | group before inner rest ihinner ihrest =>
    obtain ⟨-, hinner, hrest, hbody⟩ := ht
    refine (ihinner hinner).bind fun body hflat => ?_
    refine (hbody body hflat).2.1.bind fun value _ => ?_
    exact (ihrest hrest).bind fun others _ => failsOnlyWith_ok cause _

theorem flatten_group (before : Text) (inner rest : Nested) :
    (group before inner rest).flatten evaluate = (do
      let value ← inner.flatten evaluate >>= evaluate
      let others ← rest.flatten evaluate
      return before ++ (value ++ others)) := by
  rw [flatten, bind_assoc]

theorem collapse_group (hinner : 0 < inner.size) :
    (group before inner rest).collapse evaluate = (do
      let inner ← inner.collapse evaluate
      let rest ← rest.collapse evaluate
      return group before inner rest) := by
  cases inner with
  | plain text => cases hinner
  | group before' inner' rest' => rfl

theorem size_cases (t : Nested) : (∃ text, t = plain text) ∨ 0 < t.size := by
  cases t with
  | plain text => exact .inl ⟨text, rfl⟩
  | group before inner rest => exact .inr (Nat.succ_pos _)

/-- A round leaves what the groups of a text are replaced by. -/
theorem flatten_eq_collapse (ht : t.IsSound evaluate cause) :
    t.flatten evaluate = t.collapse evaluate >>= flatten evaluate := by
  induction t with
  | plain text => rfl
  | group before inner rest ihinner ihrest =>
    obtain ⟨-, hinner, hrest, hbody⟩ := ht
    have hrounds : FailsOnlyWith cause (rest.collapse evaluate) := by
      intro e he
      refine failsOnlyWith_flatten hrest e ?_
      rw [ihrest hrest, he, error_bind]
    rcases inner.size_cases with ⟨body, rfl⟩ | hsize
    · rw [flatten_group, collapse, ihrest hrest]
      simp [flatten, flatten_prepend, map_eq_pure_bind, bind_assoc]
    · rw [flatten_group, collapse_group hsize, ihinner hinner, ihrest hrest]
      cases hround : inner.collapse evaluate with
      | error e => rfl
      | ok inner' =>
        have hvalue : FailsOnlyWith cause (inner'.flatten evaluate >>= evaluate) := by
          have hflat := ihinner hinner
          rw [hround, ok_bind] at hflat
          rw [← hflat]
          exact (failsOnlyWith_flatten hinner).bind fun body hflat => (hbody body hflat).2.1
        -- the tree goes on with the value of the group, the round with what follows it
        have hcomm := hvalue.bind_comm hrounds fun value rest => do
          let others ← rest.flatten evaluate
          return before ++ (value ++ others)
        simpa [flatten_group, bind_assoc] using hcomm

theorem IsSound.collapse (ht : t.IsSound evaluate cause) (hround : t.collapse evaluate = .ok t') :
    t'.IsSound evaluate cause := by
  induction t generalizing t' with
  | plain text =>
    cases hround
    exact ht
  | group before inner rest ihinner ihrest =>
    obtain ⟨hbefore, hinner, hrest, hbody⟩ := ht
    rcases inner.size_cases with ⟨body, rfl⟩ | hsize
    · rw [Nested.collapse] at hround
      simp only [bind_eq_ok_iff, pure_eq_ok, Except.ok.injEq] at hround
      obtain ⟨value, hvalue, rest', hrest', rfl⟩ := hround
      obtain ⟨hopen, hclose⟩ := (hbody body rfl).2.2 value hvalue
      exact (ihrest hrest hrest').prepend (by simp [hbefore, hopen]) (by simp [hbefore, hclose])
    · rw [collapse_group hsize] at hround
      simp only [bind_eq_ok_iff, pure_eq_ok, Except.ok.injEq] at hround
      obtain ⟨inner', hinner', rest', hrest', rfl⟩ := hround
      have hflat := flatten_eq_collapse hinner
      rw [hinner', ok_bind] at hflat
      exact ⟨hbefore, ihinner hinner hinner', ihrest hrest hrest', hflat ▸ hbody⟩

/-- A round on a text with groups leaves fewer of them. -/
theorem size_collapse (hround : t.collapse evaluate = .ok t') :
    t'.size ≤ t.size ∧ (0 < t.size → t'.size < t.size) := by
  induction t generalizing t' with
  | plain text =>
    cases hround
    exact ⟨le_rfl, id⟩
  | group before inner rest ihinner ihrest =>
    rcases inner.size_cases with ⟨body, rfl⟩ | hsize
    · rw [Nested.collapse] at hround
      simp only [bind_eq_ok_iff, pure_eq_ok, Except.ok.injEq] at hround
      obtain ⟨value, -, rest', hrest', rfl⟩ := hround
      have hle := (ihrest hrest').1
      rw [size_prepend]
      simp only [size]
      omega
    · rw [collapse_group hsize] at hround
      simp only [bind_eq_ok_iff, pure_eq_ok, Except.ok.injEq] at hround
      obtain ⟨inner', hinner', rest', hrest', rfl⟩ := hround
      have hlt := (ihinner hinner').2 hsize
      have hle := (ihrest hrest').1
      simp only [size]
      omega

end Nested

/-! ## Rounds over the text -/

namespace Expression

variable {evaluate : Text → Except Fault Text} {cause : Fault} {t : Nested} {pending : Option Text}

/-- Text in front of a parenthesis that opens goes on with what has been held back. -/
theorem replaceInnermost_before {before rest : Text} (hopen : '(' ∉ before)
    (hclose : ')' ∉ before) :
    replaceInnermost evaluate pending (before ++ '(' :: rest) =
      (fun result => (heldBack pending ++ (before ++ result.1), result.2)) <$>
        replaceInnermost evaluate (some []) rest := by
  cases pending with
  | none =>
    rw [replaceInnermost_none_append hopen, replaceInnermost_open, Functor.map_map]
    rfl
  | some pending =>
    rw [replaceInnermost_some_append hopen hclose, replaceInnermost_open]
    simp [heldBack]

/-- A round on a part outside of groups, which may have groups or not. -/
theorem exists_replaceInnermost_rest (ht : t.IsSound evaluate cause) (hround : 0 < t.size → ∀ after,
      replaceInnermost evaluate none (t.text ++ after) = (do
        let t' ← t.collapse evaluate
        let result ← replaceInnermost evaluate none after
        return (t'.text ++ result.1, true))) :
    ∃ flag : Bool → Bool, ∀ after, replaceInnermost evaluate none (t.text ++ after) = (do
      let t' ← t.collapse evaluate
      let result ← replaceInnermost evaluate none after
      return (t'.text ++ result.1, flag result.2)) := by
  rcases t.size_cases with ⟨text, rfl⟩ | hsize
  · refine ⟨id, fun after => ?_⟩
    rw [Nested.text, replaceInnermost_none_append ht.1, map_eq_pure_bind]
    rfl
  · exact ⟨fun _ => true, hround hsize⟩

/-- A round over a text with groups is the round on its tree. -/
theorem replaceInnermost_nested (ht : t.IsSound evaluate cause) (hsize : 0 < t.size)
    (pending : Option Text) (after : Text) :
    replaceInnermost evaluate pending (t.text ++ after) = (do
      let t' ← t.collapse evaluate
      let result ← replaceInnermost evaluate none after
      return (heldBack pending ++ (t'.text ++ result.1), true)) := by
  induction t generalizing pending after with
  | plain text => cases hsize
  | group before inner rest ihinner ihrest =>
    obtain ⟨hbefore, hinner, hrest, hbody⟩ := ht
    obtain ⟨flag, hflag⟩ := exists_replaceInnermost_rest hrest fun hsize after => by
      simpa [heldBack] using ihrest hrest hsize none after
    simp only [Nested.text, List.append_assoc, List.cons_append]
    rw [replaceInnermost_before hbefore.1 hbefore.2]
    rcases inner.size_cases with ⟨body, rfl⟩ | hinside
    · have hne : body.reverse ≠ [] := by simpa using (hbody body rfl).1
      rw [Nested.text, replaceInnermost_some_append hinner.1 hinner.2, List.append_nil,
        replaceInnermost_close hne, List.reverse_reverse, hflag, Nested.collapse]
      simp [map_eq_pure_bind, Nested.text_prepend]
    · have hend : replaceInnermost evaluate none ([')'] ++ (rest.text ++ after)) = _ :=
        replaceInnermost_none_append (by decide)
      rw [List.singleton_append] at hend
      rw [ihinner hinner hinside, hend, hflag, Nested.collapse_group hinside]
      simp [map_eq_pure_bind, heldBack, Nested.text]

theorem count_nested (ht : t.IsSound evaluate cause) :
    t.text.count '(' = t.size ∧ t.text.count ')' = t.size := by
  induction t with
  | plain text =>
    exact ⟨List.count_eq_zero_of_not_mem ht.1, List.count_eq_zero_of_not_mem ht.2⟩
  | group before inner rest ihinner ihrest =>
    obtain ⟨⟨hopen, hclose⟩, hinner, hrest, -⟩ := ht
    obtain ⟨hinnerOpen, hinnerClose⟩ := ihinner hinner
    obtain ⟨hrestOpen, hrestClose⟩ := ihrest hrest
    simp only [Nested.text, List.count_append, List.count_cons, hinnerOpen, hinnerClose, hrestOpen,
      hrestClose, Nested.size, List.count_eq_zero_of_not_mem hopen,
      List.count_eq_zero_of_not_mem hclose]
    constructor
    · simp
    · simp
      omega

theorem replaceGroups_nested (ht : t.IsSound evaluate cause) {rounds : Nat}
    (hrounds : t.size ≤ rounds) :
    replaceGroups evaluate rounds t.text = t.flatten evaluate := by
  induction rounds generalizing t with
  | zero =>
    rcases t.size_cases with ⟨text, rfl⟩ | hsize
    · exact replaceGroups_of_not_mem ht.1 0
    · omega
  | succ rounds ih =>
    rcases t.size_cases with ⟨text, rfl⟩ | hsize
    · exact replaceGroups_of_not_mem ht.1 _
    · have hmem : '(' ∈ t.text := by
        rw [← List.count_pos_iff, (count_nested ht).1]
        exact hsize
      have hround := replaceInnermost_nested ht hsize none []
      have hnil : replaceInnermost evaluate none [] = .ok ([], false) := rfl
      rw [List.append_nil, hnil] at hround
      rw [replaceGroups, if_pos hmem, hround, Nested.flatten_eq_collapse ht]
      simp only [bind_assoc, ok_bind, pure_bind, heldBack, List.nil_append, List.append_nil,
        if_true]
      cases hcollapse : t.collapse evaluate with
      | error e => rfl
      | ok t' =>
        have hless := (Nested.size_collapse hcollapse).2 hsize
        exact ih (ht.collapse hcollapse) (by omega)

/-- The groups of a text are replaced from the inside out. -/
theorem resolveGroups_nested (ht : t.IsSound evaluate cause) :
    resolveGroups evaluate t.text = t.flatten evaluate :=
  replaceGroups_nested ht (count_nested ht).1.ge

end Expression

end MatrixCalculator
