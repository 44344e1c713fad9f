import MatrixCalculator.Proofs.Expression.Quiet
import MatrixCalculator.Proofs.Numeral.Extent

/-!
# Applications of functions

The pass over the functions rewrites the text it searches, until no function has an
argument.  What is written of a value holds no name and begins and ends with a character of
none, so a round removes the name it applies and adds no other: the places where a name
begins are the measure of the pass.
-/

namespace MatrixCalculator.Expression

open Numeral Outcome Text

/-! ## Places of names -/

def nameAlphabet : Text := (NamedFunction.spellings.map Prod.fst).flatten

/-- At how many places of a text a function name begins. -/
def nameCount : Text → Nat
  | [] => 0
  | c :: text => nameCount text + if (NamedFunction.atStart? (c :: text)).isSome then 1 else 0

section Names

variable {previous : Option Char} {text left right before after : Text}

theorem isSome_atStart?_iff : (NamedFunction.atStart? text).isSome ↔
    ∃ entry ∈ NamedFunction.spellings, entry.1 <+: text := by
  rw [NamedFunction.atStart?, List.find?_isSome]
  refine exists_congr fun entry => and_congr_right fun _ => ?_
  rw [startsWith, Option.isSome_iff_exists]
  exact exists_congr fun rest => after?_eq_some_iff.trans eq_comm

theorem mem_nameAlphabet {entry : Text × NamedFunction} (hentry : entry ∈ NamedFunction.spellings)
    {c : Char} (hc : c ∈ entry.1) : c ∈ nameAlphabet :=
  List.mem_flatten.2 ⟨entry.1, List.mem_map_of_mem hentry, hc⟩

theorem isPrefix_of_atStart? {name : Text} {f : NamedFunction}
    (hstart : NamedFunction.atStart? text = some (name, f)) : name <+: text := by
  obtain ⟨rest, hrest⟩ := Option.isSome_iff_exists.1 (List.find?_some (p := fun entry :
    Text × NamedFunction => startsWith entry.1 text) hstart)
  exact ⟨rest, (after?_eq_some_iff.1 hrest).symm⟩

/-- Whether no name stands across the place between two texts. -/
def Apart (left right : Text) : Prop :=
  ∀ c d, left.getLast? = some c → right.head? = some d → c ∉ nameAlphabet ∨ d ∉ nameAlphabet

theorem Apart.tail {c : Char} (hapart : Apart (c :: left) right) : Apart left right := by
  intro last d hlast
  exact hapart last d (by rw [List.getLast?_cons, hlast, Option.getD_some])

theorem isSome_atStart?_append (hleft : left ≠ []) (hapart : Apart left right) :
    (NamedFunction.atStart? (left ++ right)).isSome = (NamedFunction.atStart? left).isSome := by
  rw [Bool.eq_iff_iff, isSome_atStart?_iff, isSome_atStart?_iff]
  refine exists_congr fun entry => and_congr_right fun hentry => ⟨?_, fun hprefix =>
    hprefix.trans (List.prefix_append left right)⟩
  rintro ⟨rest, hrest⟩
  obtain ⟨part, hpart, -⟩ | ⟨part, hpart, hright⟩ := List.append_eq_append_iff.1 hrest
  · exact ⟨part, hpart.symm⟩
  -- a name that is longer holds the characters on both sides of the place
  cases part with
  | nil => exact ⟨[], by rw [hpart, List.append_nil, List.append_nil]⟩
  | cons d part =>
    have hlast := List.getLast?_eq_some_getLast hleft
    rcases hapart _ d hlast (by rw [hright]; rfl) with hnot | hnot
    · exact absurd (mem_nameAlphabet hentry
        (by rw [hpart]; exact List.mem_append_left _ (List.getLast_mem hleft))) hnot
    · exact absurd (mem_nameAlphabet hentry
        (by rw [hpart]; exact List.mem_append_right _ (List.mem_cons_self ..))) hnot

theorem nameCount_append (hapart : Apart left right) :
    nameCount (left ++ right) = nameCount left + nameCount right := by
  induction left with
  | nil => exact (Nat.zero_add _).symm
  | cons c left ih =>
    have hhere := isSome_atStart?_append (List.cons_ne_nil c left) hapart
    rw [List.cons_append] at hhere
    rw [List.cons_append, nameCount, nameCount, ih hapart.tail, hhere]
    omega

theorem nameCount_append_le (left right : Text) :
    nameCount left + nameCount right ≤ nameCount (left ++ right) := by
  induction left with
  | nil => exact (Nat.zero_add _).le
  | cons c left ih =>
    have hhere : (NamedFunction.atStart? (c :: left)).isSome →
        (NamedFunction.atStart? (c :: (left ++ right))).isSome := by
      rw [isSome_atStart?_iff, isSome_atStart?_iff]
      rintro ⟨entry, hentry, hprefix⟩
      exact ⟨entry, hentry, hprefix.trans (List.prefix_append (c :: left) right)⟩
    rw [List.cons_append, nameCount, nameCount]
    split_ifs <;> simp_all <;> omega

/-- Behind the name that a text starts with there are fewer names than in the text. -/
theorem nameCount_lt_of_atStart? {name rest : Text} {f : NamedFunction}
    (hstart : NamedFunction.atStart? (name ++ rest) = some (name, f)) :
    nameCount rest < nameCount (name ++ rest) := by
  have hnames : ∀ entry ∈ NamedFunction.spellings, entry.1 ≠ [] := by decide
  have hhere : (NamedFunction.atStart? (name ++ rest)).isSome := by rw [hstart]; rfl
  obtain ⟨c, name, rfl⟩ := List.exists_cons_of_ne_nil (hnames _ (List.mem_of_find?_eq_some hstart))
  have hback := nameCount_append_le name rest
  rw [List.cons_append] at hhere ⊢
  rw [nameCount, if_pos hhere]
  omega

theorem nameCount_le_length (text : Text) : nameCount text ≤ text.length := by
  induction text with
  | nil => exact Nat.le_refl 0
  | cons c text ih =>
    rw [nameCount, List.length_cons]
    split <;> omega

theorem nameCount_eq_zero (hquiet : Follows IsQuiet previous text) : nameCount text = 0 := by
  induction text generalizing previous with
  | nil => rfl
  | cons c text ih =>
    rw [nameCount, ih hquiet.2, atStart?_eq_none hquiet]
    rfl

/-- A text that neither holds a name nor lets a name stand across one of its ends. -/
structure IsInert (text : Text) : Prop where
  nameCount_eq : nameCount text = 0
  head : ∃ c, text.head? = some c ∧ c ∉ nameAlphabet
  last : ∃ c, text.getLast? = some c ∧ c ∉ nameAlphabet

theorem IsInert.nameCount_between (htext : IsInert text) (before after : Text) :
    nameCount (before ++ (text ++ after)) = nameCount before + nameCount after := by
  obtain ⟨c, hhead, hc⟩ := htext.head
  obtain ⟨d, hlast, hd⟩ := htext.last
  have hfront : Apart before (text ++ after) := by
    intro _ e _ he
    rw [List.head?_append, hhead] at he
    cases he
    exact .inr hc
  have hback : Apart text after := by
    intro e _ he _
    rw [hlast] at he
    cases he
    exact .inl hd
  rw [nameCount_append hfront, nameCount_append hback, htext.nameCount_eq, Nat.zero_add]

end Names

/-! ## Values -/

theorem not_mem_nameAlphabet_of_isDigit {c : Char} (hc : c.isDigit = true) : c ∉ nameAlphabet :=
  of_isDigit (· ∉ nameAlphabet) (List.all_iff_forall_prop.1 (by decide)) hc

theorem exists_head_signed (s : SignedSpelling) :
    ∃ c, s.text.head? = some c ∧ c ∉ nameAlphabet := by
  rw [SignedSpelling.text]
  split
  · exact ⟨'-', rfl, by decide⟩
  · obtain ⟨c, rest, htext, hc⟩ := s.magnitude.exists_cons
    exact ⟨c, by rw [htext]; rfl, not_mem_nameAlphabet_of_isDigit hc⟩

theorem exists_last_signed (s : SignedSpelling) :
    ∃ c, s.text.getLast? = some c ∧ c ∉ nameAlphabet := by
  obtain ⟨c, hc, hlast⟩ := ending_signed none s
  exact ⟨c, by rw [← hlast, ending_none], not_mem_nameAlphabet_of_isDigit hc⟩

theorem isInert_number (x : Float) : IsInert (write x) := by
  refine ⟨nameCount_eq_zero (fits_operand (.scalar x) none), ?_, ?_⟩
  · rcases kind_cases x with hx | hx | hx
    · obtain ⟨s, htext, -⟩ := spellsDouble_write hx
      rw [← htext]
      exact exists_head_signed s
    · rw [write_of_isInf hx, signed]
      split
      · exact ⟨'-', rfl, by decide⟩
      · exact ⟨'I', rfl, by decide⟩
    · rw [write_of_isNaN hx]
      exact ⟨'N', rfl, by decide⟩
  · rcases kind_cases x with hx | hx | hx
    · obtain ⟨s, htext, -⟩ := spellsDouble_write hx
      rw [← htext]
      exact exists_last_signed s
    · rw [write_of_isInf hx, signed]
      split <;> exact ⟨'y', rfl, by decide⟩
    · rw [write_of_isNaN hx]
      exact ⟨'N', rfl, by decide⟩

/-- What is written of a value is inert. -/
theorem isInert_write (x : Operand) : IsInert x.write := by
  cases x with
  | scalar x => exact isInert_number x
  | matrix m =>
    refine ⟨nameCount_eq_zero (fits_operand (.matrix m) none), ⟨'[', rfl, by decide⟩, ?_⟩
    exact ⟨']', by rw [Operand.write, Literal.write, List.getLast?_concat], by decide⟩

/-- So is a value with the sign of a product in front of it. -/
theorem IsInert.times {text : Text} (htext : IsInert text) : IsInert (Symbol.times :: text) := by
  obtain ⟨c, hhead, hc⟩ := htext.head
  obtain ⟨d, hlast, hd⟩ := htext.last
  have hsign : Apart [Symbol.times] text := by
    intro _ e _ he
    rw [hhead] at he
    cases he
    exact .inr hc
  refine ⟨?_, ⟨Symbol.times, rfl, by decide⟩, d, ?_, hd⟩
  · have hcount := nameCount_append hsign
    rw [htext.nameCount_eq] at hcount
    exact hcount
  · rw [List.getLast?_cons, hlast, Option.getD_some]

/-! ## What an application consists of -/

section Found

variable {evaluate : Text → Except Fault Text} {text replaced : Text} {a : Application}

/-- Whether an argument is a literal that ends where its first brackets close. -/
def IsLiteral (argument : Text) : Prop :=
  ∃ body, argument = Literal.opening ++ body ++ Literal.closing ∧
    ¬Literal.closing <:+: body ++ [']']

/-- Whether a text has a name and an argument of it at a certain place. -/
structure Application.StandsIn (a : Application) (text : Text) : Prop where
  place : ∃ name, text = a.before ++ (name ++ (a.argument ++ a.after)) ∧
    NamedFunction.atStart? (name ++ (a.argument ++ a.after)) = some (name, a.function)
  argument : IsLiteral a.argument ∨ ∃ s : SignedSpelling, a.argument = s.text

theorem standsIn_of_atStart? (hstart : Application.atStart? text = some a) : a.StandsIn text := by
  simp only [Application.atStart?, Option.bind_eq_bind, Option.bind_eq_some_iff] at hstart
  obtain ⟨⟨name, f⟩, hname, hstart⟩ := hstart
  have htext : text = name ++ text.drop name.length := by
    obtain ⟨rest, rfl⟩ := isPrefix_of_atStart? hname
    rw [List.drop_left]
  generalize text.drop name.length = rest at hstart htext
  subst htext
  dsimp only at hstart
  split at hstart
  · simp only [Option.bind_eq_some_iff, Literal.atStart?, Option.bind_eq_bind] at hstart
    obtain ⟨⟨literal, after⟩, ⟨inside, hinside, ⟨body, behind⟩, hclose, hliteral⟩, ha⟩ := hstart
    obtain ⟨rfl, rfl⟩ := Prod.mk.inj (Option.some.inj hliteral)
    cases ha
    obtain ⟨hbody, hfirst⟩ := (cut?_eq_some_iff (by decide)).1 hclose
    obtain rfl : rest = Literal.opening ++ body ++ Literal.closing ++ behind := by
      rw [after?_eq_some_iff.1 hinside, hbody]
      simp
    exact ⟨⟨name, rfl, hname⟩, .inl ⟨body, rfl, hfirst⟩⟩
  · split at hstart
    · cases hstart
    next hextent =>
    cases hstart
    obtain ⟨s, hs⟩ := exists_take_signedExtent hextent
    refine ⟨⟨name, ?_, ?_⟩, .inr ⟨s, hs.symm⟩⟩ <;> simp only [List.take_append_drop]
    · rfl
    · exact hname

theorem standsIn_of_first? (hfirst : Application.first? text = some a) : a.StandsIn text := by
  induction text generalizing a with
  | nil => cases hfirst
  | cons c text ih =>
    rw [Application.first?] at hfirst
    split at hfirst
    · next application hstart =>
      cases hfirst
      exact standsIn_of_atStart? hstart
    · obtain ⟨next, hnext, rfl⟩ := Option.map_eq_some_iff.1 hfirst
      obtain ⟨⟨name, htext, hname⟩, hargument⟩ := ih hnext
      exact ⟨⟨name, by rw [htext]; rfl, hname⟩, hargument⟩

/-- An argument that is not a literal is read as a number. -/
theorem Application.StandsIn.operand_eq (hstands : a.StandsIn text)
    (hnumeral : startsWith Literal.opening a.argument = false) :
    ∃ x, Numeral.read? a.argument = some x ∧
      Application.operand evaluate a.argument = .ok (.scalar x) := by
  rcases hstands.argument with ⟨body, hliteral, -⟩ | ⟨s, hs⟩
  · rw [startsWith, hliteral, List.append_assoc, after?_eq_some_iff.2 rfl] at hnumeral
    cases hnumeral
  · have hread : Numeral.read? a.argument = some s.value := by rw [hs, s.read?_text]
    exact ⟨s.value, hread, by rw [Application.operand, hnumeral, hread]; rfl⟩

/-- What an application is replaced by. -/
theorem exists_of_replace (hreplaced : a.replace evaluate = .ok replaced) :
    ∃ value, IsInert value ∧ replaced = a.before ++ (value ++ a.after) := by
  simp only [Application.replace, bind_eq_ok_iff] at hreplaced
  obtain ⟨x, -, value, -, hreplaced⟩ := hreplaced
  split at hreplaced
  · cases hreplaced
  cases hreplaced
  split
  · exact ⟨Symbol.times :: value.write, (isInert_write value).times, by simp⟩
  · exact ⟨value.write, isInert_write value, by simp⟩

/-- A round leaves the names on both sides of the application and no other. -/
theorem nameCount_replace (hstands : a.StandsIn text)
    (hreplaced : a.replace evaluate = .ok replaced) :
    nameCount replaced = nameCount a.before + nameCount a.after ∧
      nameCount replaced < nameCount text := by
  obtain ⟨value, hvalue, rfl⟩ := exists_of_replace hreplaced
  obtain ⟨name, htext, hname⟩ := hstands.place
  have hcount := hvalue.nameCount_between a.before a.after
  have hfront := nameCount_append_le a.before (name ++ (a.argument ++ a.after))
  have hremoved := nameCount_lt_of_atStart? hname
  have hback := nameCount_append_le a.argument a.after
  refine ⟨hcount, ?_⟩
  rw [htext]
  omega

end Found

/-! ## The pass -/

/-- The rounds of the pass over the functions, however many there are, and their outcome. -/
inductive Replaces (evaluate : Text → Except Fault Text) : Text → Except Fault Text → Prop
  | done {text : Text} : Application.first? text = none → Replaces evaluate text (.ok text)
  | fault {text : Text} {a : Application} {cause : Fault} : Application.first? text = some a →
      a.replace evaluate = .error cause → Replaces evaluate text (.error cause)
  | round {text replaced : Text} {a : Application} {outcome : Except Fault Text} :
      Application.first? text = some a → a.replace evaluate = .ok replaced →
        Replaces evaluate replaced outcome → Replaces evaluate text outcome

section Rounds

variable {evaluate : Text → Except Fault Text} {text : Text} {outcome : Except Fault Text}

/-- As many rounds as there are names in the text are enough. -/
theorem replaces_replaceFirst {count : Nat} (hcount : nameCount text ≤ count) :
    Replaces evaluate text (Application.replaceFirst evaluate count text) := by
  induction count generalizing text with
  | zero =>
    refine .done (Option.eq_none_iff_forall_not_mem.2 fun a ha => ?_)
    obtain ⟨name, htext, hname⟩ := (standsIn_of_first? ha).place
    have hfront := nameCount_append_le a.before (name ++ (a.argument ++ a.after))
    have hremoved := nameCount_lt_of_atStart? hname
    rw [htext] at hcount
    omega
  | succ count ih =>
    rw [Application.replaceFirst]
    split
    · next hnone => exact .done hnone
    next a hfirst =>
    cases hreplaced : a.replace evaluate with
    | error cause => exact .fault hfirst hreplaced
    | ok replaced =>
      have hfewer := (nameCount_replace (standsIn_of_first? hfirst) hreplaced).2
      exact .round hfirst hreplaced (ih (by omega))

theorem Replaces.unique {other : Except Fault Text} (hreplaces : Replaces evaluate text outcome)
    (hother : Replaces evaluate text other) : outcome = other := by
  induction hreplaces with
  | done hnone =>
    cases hother with
    | done _ => rfl
    | fault hfirst _ | round hfirst _ _ => cases hnone.symm.trans hfirst
  | fault hfirst hreplaced =>
    cases hother with
    | done hnone => cases hnone.symm.trans hfirst
    | fault hfirst' hreplaced' =>
      obtain rfl := Option.some.inj (hfirst.symm.trans hfirst')
      cases hreplaced.symm.trans hreplaced'
      rfl
    | round hfirst' hreplaced' _ =>
      obtain rfl := Option.some.inj (hfirst.symm.trans hfirst')
      cases hreplaced.symm.trans hreplaced'
  | round hfirst hreplaced _ ih =>
    cases hother with
    | done hnone => cases hnone.symm.trans hfirst
    | fault hfirst' hreplaced' =>
      obtain rfl := Option.some.inj (hfirst.symm.trans hfirst')
      cases hreplaced.symm.trans hreplaced'
    | round hfirst' hreplaced' hother =>
      obtain rfl := Option.some.inj (hfirst.symm.trans hfirst')
      cases hreplaced.symm.trans hreplaced'
      exact ih hother

end Rounds

/-- The pass over the functions ends on every text, with the outcome of its rounds.  Each
application is a name with a literal or a numeral behind it, a numeral is read as a number
without fail, and what the application is replaced by adds no name, neither by itself nor
together with its neighbours, so every round leaves fewer names. -/
theorem replaceAll_ends (evaluate : Text → Except Fault Text) (text : Text) :
    (∀ outcome, Replaces evaluate text outcome ↔
      Application.replaceAll evaluate text = outcome) ∧
    ∀ a, Application.first? text = some a →
      (∃ name, text = a.before ++ (name ++ (a.argument ++ a.after)) ∧
        NamedFunction.atStart? (name ++ (a.argument ++ a.after)) = some (name, a.function)) ∧
      (IsLiteral a.argument ∨ ∃ x, Numeral.read? a.argument = some x) ∧
      (startsWith Literal.opening a.argument = false → ∃ x,
        Numeral.read? a.argument = some x ∧
          Application.operand evaluate a.argument = .ok (.scalar x)) ∧
      ∀ replaced, a.replace evaluate = .ok replaced →
        ∃ value, replaced = a.before ++ (value ++ a.after) ∧ nameCount value = 0 ∧
          nameCount replaced = nameCount a.before + nameCount a.after ∧
          nameCount replaced < nameCount text := by
  have hrounds : Replaces evaluate text (Application.replaceAll evaluate text) :=
    replaces_replaceFirst (nameCount_le_length text)
  refine ⟨fun outcome => ⟨hrounds.unique, ?_⟩, fun a hfirst => ?_⟩
  · rintro rfl
    exact hrounds
  have hstands := standsIn_of_first? hfirst
  refine ⟨hstands.place, ?_, hstands.operand_eq, fun replaced hreplaced => ?_⟩
  · refine hstands.argument.imp_right ?_
    rintro ⟨s, hs⟩
    exact ⟨s.value, by rw [hs, s.read?_text]⟩
  · obtain ⟨hcount, hfewer⟩ := nameCount_replace hstands hreplaced
    obtain ⟨value, hvalue, hsplice⟩ := exists_of_replace hreplaced
    exact ⟨value, hsplice, hvalue.nameCount_eq, hcount, hfewer⟩

end MatrixCalculator.Expression
