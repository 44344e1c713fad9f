import MatrixCalculator.Proofs.Expression.Brackets
import MatrixCalculator.Proofs.Expression.Instantiation
import MatrixCalculator.Proofs.Literal.Reading
import MatrixCalculator.Proofs.Matrix.Eigenvalues

/-!
# Literals inside of literals

The first pass finds the literals of a text one behind the other, so in what it makes of the
text no literal begins inside of another one.  An operand that begins like a literal and ends
like one may still have brackets between that end a literal.  Then one of its fields is a text
in which a bracket closes before two of them open, and all fields in front of that one are
free of brackets that end a literal.
-/

namespace MatrixCalculator

open Expression Numeral Outcome Text

namespace Expression

variable {text text' left right before after front back sign : Text} {c : Char}

/-! ## Literals inside of literals -/

/-- Where a place is that has been reached from the left: outside of all literals, perhaps
behind one bracket that opens; inside of a literal, behind a bracket or not; or behind a
literal that begins inside of another one. -/
inductive Surroundings where
  | outside (opened : Bool)
  | inside (last : Option Char)
  | broken
  deriving DecidableEq

namespace Surroundings

/-- The surroundings behind one more character.  Two brackets that open begin a literal and
two that close end it. -/
def step : Surroundings → Char → Surroundings
  | outside opened, c =>
    if c ≠ '[' then outside false else if opened then inside none else outside true
  | inside last, c =>
    if c = '[' then if last = some '[' then broken else inside (some '[')
    else if c = ']' then if last = some ']' then outside false else inside (some ']')
    else inside none
  | broken, _ => broken

def run (s : Surroundings) (text : Text) : Surroundings := text.foldl step s

/-- The surroundings behind text without brackets. -/
def settle : Surroundings → Surroundings
  | outside _ => outside false
  | inside _ => inside none
  | broken => broken

variable {s : Surroundings}

theorem run_append (s : Surroundings) (left right : Text) :
    s.run (left ++ right) = (s.run left).run right := List.foldl_append

theorem run_broken (text : Text) : run broken text = broken := by
  induction text with
  | nil => rfl
  | cons c text ih => exact ih

theorem step_plain (s : Surroundings) (hc : IsPlain c) : s.step c = s.settle := by
  have hopen : c ≠ '[' := fun heq => hc (by simp [heq])
  have hclose : c ≠ ']' := fun heq => hc (by simp [heq])
  cases s <;> simp [step, settle, hopen, hclose]

theorem settle_settle (s : Surroundings) : s.settle.settle = s.settle := by
  cases s <;> rfl

theorem run_plain (s : Surroundings) (hne : text ≠ []) (htext : ∀ c ∈ text, IsPlain c) :
    s.run text = s.settle := by
  induction text generalizing s with
  | nil => exact absurd rfl hne
  | cons c text ih =>
    obtain ⟨hc, htext⟩ := List.forall_mem_cons.1 htext
    rw [run, List.foldl_cons, step_plain s hc]
    rcases eq_or_ne text [] with rfl | hne
    · rfl
    · exact (ih _ hne htext).trans (settle_settle s)

theorem run_ne_broken (hrun : s.run (left ++ right) ≠ broken) : s.run left ≠ broken := by
  intro hleft
  rw [run_append, hleft, run_broken] at hrun
  exact hrun rfl

theorem run_opening_outside (opened : Bool) :
    ∃ last, last ≠ some ']' ∧ (outside opened).run Literal.opening = inside last := by
  cases opened
  · exact ⟨none, by decide, rfl⟩
  · exact ⟨some '[', by decide, rfl⟩

theorem run_opening_inside (last : Option Char) : (inside last).run Literal.opening = broken := by
  by_cases hlast : last = some '['
  · rw [hlast]
    rfl
  · simp [run, step, Literal.opening, hlast]

/-- Two brackets that close lead out of every literal. -/
theorem run_closing (hs : s ≠ broken) : s.run Literal.closing = outside false := by
  cases s with
  | outside opened => rfl
  | inside last =>
    by_cases hlast : last = some ']'
    · rw [hlast]
      rfl
    · simp [run, step, Literal.closing, hlast]
  | broken => exact absurd rfl hs

/-- Text without brackets leads to another place of the same kind. -/
theorem run_of_isPlain (s : Surroundings) (htext : ∀ c ∈ text, IsPlain c) :
    s.run text = s ∨ s.run text = s.settle := by
  rcases eq_or_ne text [] with rfl | hne
  · exact .inl rfl
  · exact .inr (run_plain s hne htext)

theorem exists_run_outside (opened : Bool) (htext : ∀ c ∈ text, IsPlain c) :
    ∃ opened', (outside opened).run text = outside opened' :=
  (run_of_isPlain (outside opened) htext).elim (fun h => ⟨opened, h⟩) fun h => ⟨false, h⟩

/-- A literal that is not inside of another one begins outside of all literals. -/
theorem exists_outside (hfront : ∀ c ∈ front, IsPlain c)
    (hrun : s.run (front ++ Literal.opening) ≠ broken) : ∃ opened, s = outside opened := by
  rw [run_append] at hrun
  cases s with
  | outside opened => exact ⟨opened, rfl⟩
  | inside last =>
    rcases run_of_isPlain (inside last) hfront with h | h <;> rw [h] at hrun
    · exact absurd (run_opening_inside last) hrun
    · exact absurd (run_opening_inside none) hrun
  | broken =>
    rw [run_broken] at hrun
    exact absurd (run_broken _) hrun

end Surroundings

open Surroundings

theorem SameBrackets.run_eq (hsame : SameBrackets text text') (s : Surroundings) :
    s.run text = s.run text' := by
  induction hsame generalizing s with
  | nil => rfl
  | char c _ ih => exact ih (s.step c)
  | plain hne hne' hpart hpart' _ ih =>
    rw [run_append, run_append, run_plain s hne hpart, run_plain s hne' hpart', ih]

section Written

variable {m value : Matrix Float} {x y : Operand}

theorem isPlain_of_mem_rowText {row : List Float} (hc : c ∈ Literal.rowText row) : IsPlain c := by
  have hbrackets : ∀ d ∈ ['[', ']', '('], d ≠ ',' ∧ d ∉ numberAlphabet :=
    List.all_iff_forall_prop.1 (by decide)
  intro hmem
  obtain ⟨hcomma, hnumber⟩ := hbrackets c hmem
  exact Literal.not_mem_rowText hcomma (fun x _ => not_mem_number x hnumber) hc

theorem run_writeRow (row : List Float) {s : Surroundings} {last : Option Char}
    (hopen : s.step '[' = inside last) (hlast : last ≠ some ']') :
    s.run (Literal.writeRow row) = inside (some ']') := by
  have hend : ∀ last, last ≠ some ']' → (inside last).step ']' = inside (some ']') := by
    intro last hlast
    simp [step, hlast]
  rw [Literal.writeRow_eq, run_append, run_append]
  change ((s.step '[').run (Literal.rowText row)).step ']' = _
  rw [hopen]
  rcases eq_or_ne (Literal.rowText row) [] with hrow | hrow
  · rw [hrow]
    exact hend last hlast
  · rw [run_plain _ hrow fun c => isPlain_of_mem_rowText]
    exact hend none (by decide)

/-- A written literal leads from outside of all literals to there. -/
theorem run_write (hm : 0 < m.height) (opened : Bool) :
    (outside opened).run (Literal.write m) = outside false := by
  obtain ⟨row, rows, hrows⟩ := List.exists_cons_of_ne_nil (List.length_pos_iff.1 hm)
  have hothers (rows : List (List Float)) :
      (inside (some ']')).run (rows.flatMap Literal.writeRow) = inside (some ']') := by
    induction rows with
    | nil => rfl
    | cons row rows ih =>
      have hopen : (inside (some ']')).step '[' = inside (some '[') := by decide
      rw [List.flatMap_cons, run_append, run_writeRow row hopen (by decide), ih]
  obtain ⟨last, hlast, hopen⟩ : ∃ last, last ≠ some ']' ∧
      ((outside opened).step '[').step '[' = inside last := run_opening_outside opened
  rw [Literal.write, hrows, List.flatMap_cons, run_append, run_append, run_append]
  change (((((outside opened).step '[').run (Literal.writeRow row)).run _).step ']') = _
  rw [run_writeRow row hopen hlast, hothers]
  rfl

def HasRows : Operand → Prop
  | .scalar _ => True
  | .matrix m => 0 < m.height

theorem run_operand (hx : HasRows x) (opened : Bool) :
    (outside opened).run x.write = outside false := by
  cases x with
  | scalar x =>
    exact run_plain _ (write_ne_nil x) fun c =>
      isPlain_of_mem_number fun d hd => not_mem_number x hd
  | matrix m => exact run_write hx opened

/-- A function of a matrix with rows is a number or a matrix with rows. -/
theorem hasRows_of_function {f : NamedFunction} (hx : HasRows x)
    (hvalue : Operand.apply f x = .ok y) : HasRows y := by
  cases x with
  | scalar x =>
    cases hvalue
    trivial
  | matrix m =>
    unfold Operand.apply at hvalue
    dsimp only at hvalue
    split at hvalue
    · obtain ⟨d, -, rfl⟩ := map_eq_ok_iff.1 hvalue
      trivial
    · obtain ⟨result, hresult, rfl⟩ := map_eq_ok_iff.1 hvalue
      rwa [HasRows, Matrix.height_of_spectralMap hresult]
    · obtain ⟨result, hresult, rfl⟩ := map_eq_ok_iff.1 hvalue
      rwa [HasRows, Matrix.height_of_spectralMap hresult]
    · cases hvalue
      rwa [HasRows, Matrix.height_map]

end Written

/-- Whether no literal begins inside of another one. -/
def IsTame (text : Text) : Prop := (outside false).run text ≠ broken

/-- Where no literal begins, all places are outside of literals. -/
theorem run_of_not_isInfix (hopening : ¬Literal.opening <:+: text) :
    (outside false).run text = outside (text.getLast? == some '[') := by
  induction text using List.reverseRecOn with
  | nil => rfl
  | append_singleton text c ih =>
    rw [run_append, ih fun h => hopening (h.trans (List.prefix_append text [c]).isInfix)]
    simp only [run, List.foldl_cons, List.foldl_nil, List.getLast?_concat]
    by_cases hc : c = '['
    · subst hc
      have hlast : (text.getLast? == some '[') = false := by
        rw [beq_eq_false_iff_ne]
        intro hlast
        obtain ⟨front, rfl⟩ := List.getLast?_eq_some_iff.1 hlast
        exact hopening ⟨front, [], by simp [Literal.opening]⟩
      rw [hlast]
      rfl
    · simp [step, hc]

/-- The first pass leaves no literal inside of another one. -/
theorem isTame_of_instantiates {separators : Separators} {evaluate : Text → Except Fault Text}
    (hinstantiates : Instantiates separators evaluate text text') : IsTame text' := by
  have hrun : ∃ opened, (outside false).run text' = outside opened := by
    induction hinstantiates with
    | plain hopening => exact ⟨_, run_of_not_isInfix hopening⟩
    | @literal before body rest tail m hopening _ hread _ ih =>
      have hfront : ¬Literal.opening <:+: before := fun h =>
        hopening (h.trans (List.prefix_append before ['[']).isInfix)
      have hentries := (Literal.hasEntries_of_read hread).1
      rw [run_append, run_append, run_of_not_isInfix hfront, run_write hentries.1]
      exact ih
  obtain ⟨opened, hopened⟩ := hrun
  rw [IsTame, hopened]
  nofun

/-- Up to the brackets that end it, a literal that holds no other one holds no brackets that
begin one. -/
theorem not_isInfix_opening_of_run {last : Option Char}
    (hhead : last = some ']' → text.head? ≠ some ']') (hclosing : ¬Literal.closing <:+: text)
    (hrun : (inside last).run text ≠ broken) :
    (last = some '[' → text.head? ≠ some '[') ∧ ¬Literal.opening <:+: text := by
  induction text generalizing last with
  | nil => exact ⟨fun _ => nofun, by decide⟩
  | cons c text ih =>
    have hclosing' : ¬Literal.closing <:+: text := fun h =>
      hclosing (List.infix_cons_iff.2 (.inr h))
    have hfree : ∀ last, last ≠ some ']' → last = some ']' → text.head? ≠ some ']' :=
      fun _ hne heq => absurd heq hne
    change ((inside last).step c).run text ≠ broken at hrun
    by_cases hopen : c = '['
    · subst hopen
      have hlast : last ≠ some '[' := by
        rintro rfl
        exact hrun (run_broken text)
      have hstep : (inside last).step '[' = inside (some '[') := by simp [step, hlast]
      rw [hstep] at hrun
      obtain ⟨hnext, hrest⟩ := ih (hfree _ (by decide)) hclosing' hrun
      refine ⟨fun h => absurd h hlast, fun h => ?_⟩
      rcases List.infix_cons_iff.1 h with ⟨rest, hrest'⟩ | h
      · exact hnext rfl (by rw [← (List.cons.inj hrest').2]; rfl)
      · exact hrest h
    have hrest : ¬Literal.opening <:+: text := by
      by_cases hclose : c = ']'
      · subst hclose
        have hlast : last ≠ some ']' := fun h => hhead h rfl
        have hstep : (inside last).step ']' = inside (some ']') := by simp [step, hlast]
        have hnext : text.head? ≠ some ']' := by
          intro hnext
          obtain ⟨rest, rfl⟩ := List.head?_eq_some_iff.1 hnext
          exact hclosing ⟨[], rest, rfl⟩
        rw [hstep] at hrun
        exact (ih (fun _ => hnext) hclosing' hrun).2
      · have hstep : (inside last).step c = inside none := by simp [step, hopen, hclose]
        rw [hstep] at hrun
        exact (ih (hfree _ (by decide)) hclosing' hrun).2
    refine ⟨fun _ h => hopen (Option.some.inj h), fun h => ?_⟩
    rcases List.infix_cons_iff.1 h with ⟨rest, hrest'⟩ | h
    · exact hopen (List.cons.inj hrest').1.symm
    · exact hrest h

/-! ## Brackets behind the end of a literal -/

/-- Whether a bracket closes with no two brackets that begin a literal in front of it. -/
def IsBarred (text : Text) : Prop :=
  ∃ front rest, text = front ++ ']' :: rest ∧ ¬Literal.opening <:+: front

/-- The interior of a literal that holds no other one: it is free of brackets that end a
literal, or it has one behind what would be the interior up to these. -/
theorem exists_bracket_of_run {interior : Text} {opened : Bool}
    (hrun : (outside opened).run (Literal.opening ++ interior ++ Literal.closing) ≠ broken) :
    ¬Literal.closing <:+: interior ∨
      ∃ body rest, interior = body ++ ']' :: rest ∧ (∀ c, rest.head? = some c → c = ']') ∧
        ¬Literal.opening <:+: body ∧ ¬Literal.closing <:+: body := by
  have hsome : (cut? Literal.closing (interior ++ Literal.closing ++ [])).isSome = true :=
    isSome_cut? interior
  rw [List.append_nil] at hsome
  -- the first brackets that close may overlap with those at the end
  obtain ⟨⟨body, behind⟩, hcut⟩ := Option.isSome_iff_exists.1 hsome
  have htext := eq_append_of_cut? hcut
  have hclosing : ¬Literal.closing <:+: body := not_isInfix_of_cut? (by decide) hcut
  have hopening : ¬Literal.opening <:+: body := by
    obtain ⟨last, hlast, hopen⟩ := run_opening_outside opened
    rw [List.append_assoc, htext, ← List.append_assoc, ← List.append_assoc] at hrun
    have hbody := run_ne_broken (run_ne_broken hrun)
    rw [run_append, hopen] at hbody
    exact (not_isInfix_opening_of_run (fun h => absurd h hlast) hclosing hbody).2
  rcases List.eq_nil_or_concat' behind with rfl | ⟨behind, c, rfl⟩
  · rw [List.append_nil, List.append_cancel_right_eq] at htext
    exact .inl (htext ▸ hclosing)
  have htext : interior ++ [']'] = body ++ Literal.closing ++ behind := by
    have hdrop := congrArg List.dropLast htext
    rw [← List.append_assoc, List.dropLast_concat] at hdrop
    rw [← hdrop]
    simp [Literal.closing]
  refine .inr ?_
  rcases List.eq_nil_or_concat' behind with rfl | ⟨behind, d, rfl⟩
  · refine ⟨body, [], ?_, fun c hc => absurd hc (by simp), hopening, hclosing⟩
    have hdrop := congrArg List.dropLast htext
    simpa [Literal.closing] using hdrop
  · refine ⟨body, ']' :: behind, ?_, by simp, hopening, hclosing⟩
    have hdrop := congrArg List.dropLast htext
    rw [← List.append_assoc, List.dropLast_concat, List.dropLast_concat] at hdrop
    simpa [Literal.closing] using hdrop

/-- A character that no mark between the parts takes stands in one of them. -/
theorem exists_part_of_intercalate {mark : Text} {parts : List Text} (hmark : mark ≠ [])
    (hapart : ∀ trail, trail <:+ mark → trail ≠ [] → ¬trail <+: c :: right)
    (hne : parts ≠ []) (htext : mark.intercalate parts = left ++ c :: right) :
    ∃ before inner tail after, parts = before ++ (inner ++ c :: tail) :: after ∧
      (∀ part ∈ before, part <:+: left) ∧ inner <:+: left := by
  induction parts generalizing left with
  | nil => exact absurd rfl hne
  | cons part parts ih =>
    have hfirst : ∀ tail, part = left ++ c :: tail → ∃ before inner tail after,
        part :: parts = before ++ (inner ++ c :: tail) :: after ∧
          (∀ part ∈ before, part <:+: left) ∧ inner <:+: left :=
      fun tail hpart => ⟨[], left, tail, parts, by rw [hpart]; rfl, nofun, List.infix_rfl⟩
    rcases parts with _ | ⟨next, parts⟩
    · exact hfirst right (by simpa using htext)
    rw [List.intercalate_cons_cons, List.append_assoc] at htext
    -- the mark cannot reach over the character, so it lies in front of it
    have hbehind : ∀ gap, mark ++ mark.intercalate (next :: parts) = gap ++ c :: right →
        ∃ inner, gap = mark ++ inner ∧ mark.intercalate (next :: parts) = inner ++ c :: right := by
      intro gap hgap
      rcases List.append_eq_append_iff.1 hgap with ⟨inner, hinner, hrest⟩ | ⟨trail, hlead, hrest⟩
      · exact ⟨inner, hinner, hrest⟩
      · rcases eq_or_ne trail [] with rfl | htrail
        · exact ⟨[], by simpa using hlead.symm, hrest.symm⟩
        · exact absurd ⟨_, hrest.symm⟩ (hapart trail ⟨gap, hlead.symm⟩ htrail)
    rcases List.append_eq_append_iff.1 htext with ⟨gap, rfl, hgap⟩ | ⟨tail, hpart, htail⟩
    · obtain ⟨inner, rfl, hinner⟩ := hbehind gap hgap
      obtain ⟨before, found, tail, after, hsplit, hbefore, hfound⟩ := ih (by simp) hinner
      have hinside : inner <:+: part ++ (mark ++ inner) := ⟨part ++ mark, [], by simp⟩
      refine ⟨part :: before, found, tail, after, by rw [hsplit]; rfl, ?_, hfound.trans hinside⟩
      refine List.forall_mem_cons.2 ⟨(List.prefix_append _ _).isInfix, fun other hother => ?_⟩
      exact (hbefore other hother).trans hinside
    · cases tail with
      | nil => exact absurd ⟨_, htail.symm⟩ (hapart mark List.suffix_rfl hmark)
      | cons d tail =>
        obtain ⟨rfl, -⟩ := List.cons.inj htail
        exact hfirst tail hpart

/-- Where a literal ends in front of other brackets that close, its fields are fields of the
part up to its end, one with a bracket that closes behind such a field, and others. -/
theorem exists_fieldsOf_bracket (body : Text) {rest : Text}
    (hrest : ∀ c, rest.head? = some c → c = ']') :
    ∃ left part tail right, (Literal.fieldsOf Separators.canonical (body ++ ']' :: rest)).flatten =
        left ++ (part ++ ']' :: tail) :: right ∧
      (∀ field ∈ left, field <:+: body) ∧ part <:+: body := by
  have hrow : ∀ trail, trail <:+ Literal.rowBreak → trail ≠ [] → ¬trail <+: ']' :: rest := by
    intro trail htrail hne hstart
    rw [Literal.rowBreak, List.suffix_cons_iff, List.suffix_cons_iff, List.suffix_nil] at htrail
    rcases htrail with rfl | rfl | rfl
    · obtain ⟨behind, rfl⟩ := (List.cons_prefix_cons.1 hstart).2
      exact absurd (hrest '[' rfl) (by decide)
    · exact absurd (List.cons_prefix_cons.1 hstart).1 (by decide)
    · exact hne rfl
  have hseparator : ∀ behind trail : Text, trail <:+ [','] → trail ≠ [] →
      ¬trail <+: ']' :: behind := by
    intro behind trail htrail hne hstart
    rw [List.suffix_cons_iff, List.suffix_nil] at htrail
    rcases htrail with rfl | rfl
    · exact absurd (List.cons_prefix_cons.1 hstart).1 (by decide)
    · exact hne rfl
  obtain ⟨hlines, -, hinterior⟩ := Literal.splitOn_rowBreak_iff.1
    (rfl : splitOn Literal.rowBreak (body ++ ']' :: rest) = _)
  obtain ⟨above, inner, tail, below, hsplit, habove, hinner⟩ :=
    exists_part_of_intercalate (by decide) hrow hlines hinterior.symm
  obtain ⟨hfields, -, hline⟩ := Literal.splitOn_separator_iff.1
    (rfl : splitOn [','] (inner ++ ']' :: tail) = _)
  obtain ⟨before, part, tail', after, hsplit', hbefore, hpart⟩ :=
    exists_part_of_intercalate (by decide) (hseparator tail) hfields hline.symm
  refine ⟨above.flatMap (splitOn [',']) ++ before, part, tail',
    after ++ below.flatMap (splitOn [',']), ?_, ?_, hpart.trans hinner⟩
  · rw [Literal.fieldsOf, hsplit, ← List.flatMap_def, List.flatMap_append, List.flatMap_cons]
    change above.flatMap (splitOn [',']) ++ (splitOn [','] _ ++ below.flatMap (splitOn [','])) = _
    rw [hsplit']
    simp
  · rw [List.forall_mem_append]
    refine ⟨fun field hfield => ?_, fun field hfield => (hbefore field hfield).trans hinner⟩
    obtain ⟨line, hline, hfield⟩ := List.mem_flatMap.1 hfield
    exact (isInfix_of_mem_splitOn (by decide) hfield).trans (habove line hline)

theorem IsBarred.append (htext : IsBarred text) (rest : Text) : IsBarred (text ++ rest) := by
  obtain ⟨front, tail, rfl, hfront⟩ := htext
  exact ⟨front, tail ++ rest, by simp, hfront⟩

theorem IsBarred.same (htext : IsBarred text) (hsame : SameBrackets text text') :
    IsBarred text' := by
  obtain ⟨front, rest, heq, hfront⟩ := htext
  obtain ⟨front', rest', heq', hsame', -⟩ := hsame.exists_append (by decide) heq
  exact ⟨front', rest', heq', hsame'.not_isInfix_opening hfront⟩

/-- A bracket closes in front of every literal. -/
theorem IsBarred.of_opening (htext : IsBarred (before ++ (Literal.opening ++ after))) :
    IsBarred before := by
  obtain ⟨front, rest, heq, hfront⟩ := htext
  rcases List.append_eq_append_iff.1 heq with ⟨gap, rfl, hgap⟩ | ⟨gap, rfl, hgap⟩
  · match gap, hgap with
    | a :: b :: gap, hgap =>
      obtain ⟨rfl, rfl, -⟩ : '[' = a ∧ '[' = b ∧ _ := by simpa [Literal.opening] using hgap
      exact absurd ⟨before, gap, by simp [Literal.opening]⟩ hfront
  · cases gap with
    | nil => cases hgap
    | cons c gap =>
      obtain ⟨rfl, -⟩ := List.cons.inj hgap
      exact ⟨front, gap, rfl, hfront⟩

theorem IsBarred.of_plain (htext : IsBarred (before ++ after)) (hafter : ∀ c ∈ after, IsPlain c) :
    IsBarred before := by
  obtain ⟨front, rest, heq, hfront⟩ := htext
  have hbracket : ∀ gap, after ≠ gap ++ ']' :: rest := by
    rintro gap rfl
    exact absurd (hafter ']' (by simp)) (by decide)
  rcases List.append_eq_append_iff.1 heq with ⟨gap, -, hgap⟩ | ⟨gap, rfl, hgap⟩
  · exact absurd hgap (hbracket gap)
  · cases gap with
    | nil => exact absurd hgap.symm (hbracket [])
    | cons c gap =>
      obtain ⟨rfl, -⟩ := List.cons.inj hgap
      exact ⟨front, gap, rfl, hfront⟩

end Expression

end MatrixCalculator
