import MatrixCalculator.Proofs.Chain.UnaryForms
import MatrixCalculator.Proofs.Expression.Operands
import MatrixCalculator.Proofs.Expression.Quiet
import MatrixCalculator.Proofs.Numeral.Extent

/-!
# Functions in front of numerals

A function name with a numeral behind it is replaced by the written value, from the left
and one after the other.  Neither numerals nor operators have anything of a name in them,
so a chain of numerals with functions in front of some becomes the chain of the numerals
that are written of the values.
-/

namespace MatrixCalculator

open Chain Numeral Outcome Scalar Text

/-- Whether a function in front of a numeral is applied to all of it, and has a value that
is written as a numeral. -/
def UnaryTerm.IsReplaceable (t : UnaryTerm) : Prop :=
  match t.form with
  | .applied name => t.numeral.HasSmallMark ∧ (name.1.2.apply t.numeral.value).isFinite = true
  | _ => True

instance : (t : UnaryTerm) → Decidable t.IsReplaceable
  | ⟨.applied name, numeral⟩ =>
    inferInstanceAs (Decidable (numeral.HasSmallMark ∧
      (name.1.2.apply numeral.value).isFinite = true))
  | ⟨.bare, _⟩ | ⟨.negated, _⟩ | ⟨.percent, _⟩ => isTrue trivial

namespace Expression

variable {c : Char} {rest : Text}

/-! ## Names -/

/-- A character that a name lacks ends the search for the name. -/
theorem startsWith_append_cons {lead : Text} (hc : c ∉ lead) (text : Text) :
    startsWith lead (text ++ c :: rest) = startsWith lead text := by
  rw [startsWith, startsWith]
  induction lead generalizing text with
  | nil => rfl
  | cons d lead ih =>
    obtain ⟨hne, hc⟩ := not_or.1 (List.mem_cons.not.1 hc)
    cases text with
    | nil => rw [List.nil_append, after?_eq_none_of_ne (Ne.symm hne), after?]
    | cons b text =>
      rw [List.cons_append, after?, after?]
      split
      · exact ih hc text
      · rfl

/-- Of the names at the head of a text that goes on with another character than those of
names the one written is found. -/
theorem atStart?_name (name : FunctionName) (hc : ∀ entry ∈ NamedFunction.spellings, c ∉ entry.1) :
    NamedFunction.atStart? (name.1.1 ++ c :: rest) = some name.1 := by
  have hfirst : ∀ entry ∈ NamedFunction.spellings,
      (NamedFunction.spellings.find? fun other => startsWith other.1 entry.1) = some entry := by
    decide
  have hsearch : ∀ entry ∈ NamedFunction.spellings,
      startsWith entry.1 (name.1.1 ++ c :: rest) = startsWith entry.1 name.1.1 :=
    fun entry hentry => startsWith_append_cons (hc entry hentry) name.1.1
  rw [NamedFunction.atStart?, ← hfirst name.1 name.2]
  exact List.find?_congr hsearch

/-- A numeral begins with a character that is in no name. -/
theorem exists_cons_signed (s : SignedSpelling) :
    ∃ c others, s.text = c :: others ∧ (∀ entry ∈ NamedFunction.spellings, c ∉ entry.1) ∧
      c ≠ '[' := by
  have hplain : ∀ entry ∈ NamedFunction.spellings, entry.1.all fun d => !d.isDigit := by decide
  obtain ⟨negative, s⟩ := s
  cases negative with
  | true => exact ⟨'-', s.text, rfl, by decide, by decide⟩
  | false =>
    obtain ⟨c, others, htext, hc⟩ := s.exists_cons
    refine ⟨c, others, htext, fun entry hentry hmem => ?_, ne_of_isDigit hc (by decide)⟩
    have hdigit := List.all_eq_true.1 (hplain entry hentry) c hmem
    rw [hc] at hdigit
    cases hdigit

/-- A function in front of a numeral is applied to the numeral. -/
theorem atStart?_applied (name : FunctionName) {s : SignedSpelling}
    (hmark : s.magnitude.HasSmallMark) (hrest : EndsNumeral rest) :
    Application.atStart? (name.1.1 ++ (s.text ++ rest)) = some ⟨[], name.1.2, s.text, rest⟩ := by
  have hextent := signedExtent_append hmark hrest
  obtain ⟨c, others, htext, hname, hbracket⟩ := exists_cons_signed s
  have hliteral : startsWith Literal.opening (s.text ++ rest) = false := by
    rw [htext, List.cons_append, startsWith, Literal.opening,
      after?_eq_none_of_ne hbracket.symm]
    rfl
  have hname : NamedFunction.atStart? (name.1.1 ++ (s.text ++ rest)) = some name.1 := by
    rw [htext]
    exact atStart?_name name hname
  have hne : s.text.length ≠ 0 := by simp [htext]
  rw [Application.atStart?, hname]
  simp [hliteral, hextent, hne]

/-! ## Skipping numerals and operators -/

/-- No name is found where the second character is not the one of a name. -/
theorem atStart?_eq_none_of_head
    (hhead : ∀ entry ∈ NamedFunction.spellings, entry.1.head? = some c →
      ∃ d, entry.1.tail.head? = some d ∧ rest.head? ≠ some d) :
    NamedFunction.atStart? (c :: rest) = none := by
  have hnames : ∀ entry ∈ NamedFunction.spellings, entry.1 ≠ [] := by decide
  refine List.find?_eq_none.2 fun entry hentry hstarts => ?_
  obtain ⟨behind, hbehind⟩ := Option.isSome_iff_exists.1 hstarts
  obtain ⟨first, name, hname⟩ := List.exists_cons_of_ne_nil (hnames entry hentry)
  rw [after?_eq_some_iff, hname, List.cons_append] at hbehind
  obtain ⟨rfl, rfl⟩ := List.cons.inj hbehind
  obtain ⟨d, hd, hne⟩ := hhead entry hentry (by rw [hname]; rfl)
  rw [hname, List.tail_cons] at hd
  exact hne (by rw [List.head?_append, hd]; rfl)

/-- An application with more text in front of it. -/
def Application.behind (before : Text) (a : Application) : Application :=
  { a with before := before ++ a.before }

/-- Whether the search for an application goes on behind a text. -/
def Skips (text rest : Text) : Prop :=
  Application.first? (text ++ rest) = (Application.first? rest).map (Application.behind text)

theorem skips_nil : Skips [] rest := Option.map_id'.symm

theorem Skips.append {left right : Text} (hleft : Skips left (right ++ rest))
    (hright : Skips right rest) : Skips (left ++ right) rest := by
  have hbehind : Application.behind left ∘ Application.behind right =
      Application.behind (left ++ right) := funext fun a => by simp [Application.behind]
  rw [Skips, List.append_assoc, hleft, hright, Option.map_map, hbehind]

theorem skips_singleton (hnone : NamedFunction.atStart? (c :: rest) = none) : Skips [c] rest := by
  rw [Skips, List.singleton_append, Application.first?, Application.atStart?, hnone]
  rfl

/-- Whether no name begins with a character. -/
def BeginsNoName (c : Char) : Prop := ∀ entry ∈ NamedFunction.spellings, entry.1.head? ≠ some c

instance (c : Char) : Decidable (BeginsNoName c) :=
  inferInstanceAs (Decidable (∀ entry ∈ NamedFunction.spellings, _))

theorem skips_of_forall {text : Text} (htext : ∀ c ∈ text, BeginsNoName c) : Skips text rest := by
  induction text with
  | nil => exact skips_nil
  | cons c text ih =>
    have hfirst : Skips [c] (text ++ rest) := skips_singleton <|
      atStart?_eq_none_of_head fun entry hentry hhead =>
        absurd hhead (htext c (List.mem_cons_self ..) entry hentry)
    exact hfirst.append (ih fun d hd => htext d (List.mem_cons_of_mem c hd))

theorem skips_signed (s : SignedSpelling) : Skips s.text rest := by
  have hnumeral : ∀ c ∈ numeralAlphabet, BeginsNoName c := List.all_iff_forall_prop.1 (by decide)
  refine skips_of_forall fun c hc => hnumeral c ?_
  by_contra hmem
  exact not_mem_signed s hmem hc

/-- The last letter of an operator and the head of an operand are not the ones of a name. -/
theorem skips_symbol (op : Operator) (hrest : rest.head? ≠ some 'e') : Skips op.symbol rest := by
  cases op with
  | mod =>
    have hword : Skips ['m', 'o'] (['d'] ++ rest) :=
      skips_of_forall (List.all_iff_forall_prop.1 (by decide))
    have hletter : ∀ entry ∈ NamedFunction.spellings, entry.1.head? = some 'd' →
        entry.1.tail.head? = some 'e' := by decide
    exact hword.append (skips_singleton (atStart?_eq_none_of_head fun entry hentry hhead =>
      ⟨'e', hletter entry hentry hhead, hrest⟩))
  | _ => exact skips_of_forall (List.all_iff_forall_prop.1 (by decide))

/-- Whether the search goes on behind a text, unless the second letter of a name follows. -/
def IsSkipped (text : Text) : Prop := ∀ rest, rest.head? ≠ some 'e' → Skips text rest

theorem isSkipped_nil : IsSkipped [] := fun _ _ => skips_nil

/-- The head of an operand is not the second letter of a name. -/
theorem head?_term (t : UnaryTerm) (rest : Text) : (t.text ++ rest).head? ≠ some 'e' := by
  have hnames : ∀ entry ∈ NamedFunction.spellings, entry.1.head?.any (· != 'e') := by decide
  obtain ⟨form, numeral⟩ := t
  obtain ⟨c, others, htext, hc⟩ := numeral.exists_cons
  have hdigit : ∀ tail, (c :: tail).head? ≠ some 'e' := fun tail h =>
    ne_of_isDigit hc (by decide) (Option.some.inj h)
  cases form with
  | bare => simpa [UnaryTerm.text, htext] using hdigit
  | negated => simp [UnaryTerm.text]
  | percent => simpa [UnaryTerm.text, htext] using hdigit
  | applied name =>
    obtain ⟨d, hhead, hd⟩ := (Option.any_eq_true _ _).1 (hnames name.1 name.2)
    simpa [UnaryTerm.text, List.head?_append, hhead] using hd

theorem head?_signed (s : SignedSpelling) (rest : Text) : (s.text ++ rest).head? ≠ some 'e' := by
  obtain ⟨negative, magnitude⟩ := s
  cases negative with
  | true => exact head?_term ⟨.negated, magnitude⟩ rest
  | false => exact head?_term ⟨.bare, magnitude⟩ rest

theorem head?_symbol (op : Operator) (rest : Text) : (op.symbol ++ rest).head? ≠ some 'e' := by
  have hsymbol : op.symbol.head?.any (· != 'e') = true := by cases op <;> decide
  obtain ⟨c, hhead, hc⟩ := (Option.any_eq_true _ _).1 hsymbol
  simpa [List.head?_append, hhead] using hc

theorem IsSkipped.symbol {text : Text} (htext : IsSkipped text) (op : Operator) :
    IsSkipped (text ++ op.symbol) :=
  fun rest hrest => (htext _ (head?_symbol op rest)).append (skips_symbol op hrest)

theorem IsSkipped.signed {text : Text} (htext : IsSkipped text) (s : SignedSpelling) :
    IsSkipped (text ++ s.text) :=
  fun rest _ => (htext _ (head?_signed s rest)).append (skips_signed s)

/-! ## Replacing -/

variable {evaluate : Text → Except Fault Text} {before : Text} {t : UnaryTerm}
  {links : Links UnaryTerm} {count : Nat}

theorem replaceFirst_of_none {text : Text} (hnone : Application.first? text = none) (count : Nat) :
    Application.replaceFirst evaluate count text = .ok text := by
  cases count with
  | zero => rfl
  | succ count =>
    rw [Application.replaceFirst, hnone]
    rfl

theorem first?_applied (name : FunctionName) {s : SignedSpelling}
    (hmark : s.magnitude.HasSmallMark) (hrest : EndsNumeral rest) :
    Application.first? (name.1.1 ++ (s.text ++ rest)) = some ⟨[], name.1.2, s.text, rest⟩ := by
  have hnames : ∀ entry ∈ NamedFunction.spellings, entry.1 ≠ [] := by decide
  have hstart := atStart?_applied name hmark hrest
  obtain ⟨c, word, hname⟩ := List.exists_cons_of_ne_nil (hnames name.1 name.2)
  rw [hname, List.cons_append] at hstart ⊢
  rw [Application.first?, hstart]

/-- A function of a numeral is replaced by what is written of its value. -/
theorem replace_applied (f : NamedFunction) (s : SignedSpelling)
    (hbefore : Application.followsFactor before = false) :
    Application.replace evaluate ⟨before, f, s.text, rest⟩ =
      if (f.apply s.value).isNaN then .error .notANumber
      else .ok (before ++ (write (f.apply s.value) ++ rest)) := by
  have hliteral : startsWith Literal.opening s.text = false :=
    not_startsWith_opening (not_mem_signed s (by decide))
  have hcontains : contains notANumberWord (write (f.apply s.value)) =
      (f.apply s.value).isNaN := by
    have hiff := Operand.contains_write_iff (.scalar (f.apply s.value))
    rw [Operand.IsNumber, Operand.write] at hiff
    rw [Bool.eq_iff_iff, ← not_iff_not, Bool.not_eq_true, Bool.not_eq_true, hiff]
  rw [← hcontains]
  cases hword : contains notANumberWord (write (f.apply s.value)) <;>
    simp [Application.replace, Application.operand, hliteral, s.read?_text, Operand.apply,
      Operand.write, hword, hbefore]

/-- The first operand that has not been replaced yet becomes a numeral. -/
theorem exists_replaceFirst_term (hform : t.form ≠ .percent) (hreplaceable : t.IsReplaceable)
    (hskipped : IsSkipped before) (hbefore : Application.followsFactor before = false)
    (hcount : 0 < count) (hrest : EndsNumeral rest) :
    ∃ (s : SignedSpelling) (left : Nat), s.value = t.value .writtenDoubles ∧ count ≤ left + 1 ∧
      Application.replaceFirst evaluate count (before ++ (t.text ++ rest)) =
        Application.replaceFirst evaluate left (before ++ (s.text ++ rest)) := by
  obtain ⟨form, numeral⟩ := t
  cases form with
  | bare => exact ⟨⟨false, numeral⟩, count, rfl, Nat.le_succ count, rfl⟩
  | negated => exact ⟨⟨true, numeral⟩, count, rfl, Nat.le_succ count, rfl⟩
  | percent => exact absurd rfl hform
  | applied name =>
    obtain ⟨hmark, hfinite⟩ := hreplaceable
    obtain ⟨s, htext, hvalue⟩ := spellsDouble_write hfinite
    obtain ⟨left, rfl⟩ := Nat.exists_eq_succ_of_ne_zero hcount.ne'
    have htext' : UnaryTerm.text ⟨.applied name, numeral⟩ ++ rest =
        name.1.1 ++ (numeral.text ++ rest) := List.append_assoc ..
    have hfound := hskipped _ (head?_term ⟨.applied name, numeral⟩ rest)
    have hfirst : Application.first? (name.1.1 ++ (numeral.text ++ rest)) =
        some ⟨[], name.1.2, numeral.text, rest⟩ :=
      first?_applied name (s := ⟨false, numeral⟩) hmark hrest
    rw [htext', Skips, hfirst, Option.map_some, Application.behind, List.append_nil] at hfound
    refine ⟨s, left, hvalue, Nat.le_refl _, ?_⟩
    rw [htext', Application.replaceFirst, hfound]
    have hreplaced : Application.replace evaluate ⟨before, name.1.2, numeral.text, rest⟩ = _ :=
      replace_applied name.1.2 ⟨false, numeral⟩ hbefore
    rw [show SignedSpelling.value ⟨false, numeral⟩ = numeral.value from rfl,
      not_isNaN_of_isFinite hfinite, if_neg Bool.false_ne_true, ← htext] at hreplaced
    simp only [hreplaced, ok_bind]

theorem followsFactor_symbol (op : Operator) :
    Application.followsFactor (before ++ op.symbol) = false := by
  rw [Application.followsFactor, List.getLast?_append]
  cases op <;> rfl

theorem endsNumeral_linkText (links : Links UnaryTerm) :
    EndsNumeral (linkText UnaryTerm.text links) := by
  cases links with
  | nil => exact endsNumeral_nil
  | cons link links =>
    rw [linkText, List.flatMap_cons, List.append_assoc]
    exact endsNumeral_symbol link.1

/-- Behind numerals and operators every link of a chain becomes one to a numeral. -/
theorem exists_replaceFirst_links (hform : ∀ link ∈ links, link.2.form ≠ .percent)
    (hreplaceable : ∀ link ∈ links, link.2.IsReplaceable)
    (hskipped : IsSkipped before) (hcount : links.length ≤ count) :
    ∃ replaced : Links SignedSpelling,
      (replaced.map fun link => (link.1, link.2.value)) =
        (links.map fun link => (link.1, link.2.value .writtenDoubles)) ∧
      Application.replaceFirst evaluate count (before ++ linkText UnaryTerm.text links) =
        .ok (before ++ linkText SignedSpelling.text replaced) := by
  induction links generalizing before count with
  | nil =>
    have hnone : Application.first? (before ++ []) = none := by
      rw [hskipped [] (by decide)]
      rfl
    exact ⟨[], rfl, replaceFirst_of_none hnone count⟩
  | cons link links ih =>
    obtain ⟨op, next⟩ := link
    obtain ⟨hnext, hform⟩ := List.forall_mem_cons.1 hform
    obtain ⟨hnextReplaceable, hreplaceable⟩ := List.forall_mem_cons.1 hreplaceable
    rw [List.length_cons] at hcount
    have hsymbol := hskipped.symbol op
    obtain ⟨s, left, hvalue, hleft, hreplaced⟩ := exists_replaceFirst_term hnext hnextReplaceable
      hsymbol (followsFactor_symbol op) (Nat.lt_of_lt_of_le (Nat.succ_pos _) hcount)
      (endsNumeral_linkText links)
    -- the numeral is skipped like the operator in front of it, so the search is at the next link
    obtain ⟨replaced, hvalues, hlinks⟩ := ih hform hreplaceable (hsymbol.signed s)
      (show links.length ≤ left by omega)
    refine ⟨(op, s) :: replaced, by simp [hvalue, hvalues], ?_⟩
    simp only [List.append_assoc] at hreplaced hlinks
    simp only [linkText, List.flatMap_cons, List.append_assoc] at hreplaced hlinks ⊢
    rw [hreplaced, hlinks]

theorem chainText_eq (first : SignedSpelling) (links : Links SignedSpelling) :
    chainText first links = first.text ++ linkText SignedSpelling.text links := by
  induction links generalizing first with
  | nil => exact (List.append_nil _).symm
  | cons link links ih => simp [chainText, linkText, ih]

theorem length_linkText (links : Links UnaryTerm) :
    links.length ≤ (linkText UnaryTerm.text links).length := by
  induction links with
  | nil => exact Nat.zero_le _
  | cons link links ih =>
    have hsymbol : 0 < link.1.symbol.length := by cases link.1 <;> decide
    rw [linkText] at ih ⊢
    simp only [List.flatMap_cons, List.length_append, List.length_cons]
    omega

theorem length_term_pos (t : UnaryTerm) : 0 < t.text.length := by
  obtain ⟨form, numeral⟩ := t
  obtain ⟨c, others, htext, -⟩ := numeral.exists_cons
  cases form <;> simp [UnaryTerm.text, htext]

/-- The functions of a chain are replaced by numerals of their values. -/
theorem exists_replaceAll (evaluate : Text → Except Fault Text) (first : UnaryTerm)
    (links : Links UnaryTerm)
    (hform : ∀ t ∈ first :: links.map Prod.snd, t.form ≠ .percent)
    (hreplaceable : ∀ t ∈ first :: links.map Prod.snd, t.IsReplaceable) :
    ∃ (s : SignedSpelling) (replaced : Links SignedSpelling),
      linkValue Operator.onScalars SignedSpelling.value s replaced =
        unaryValue .writtenDoubles first links ∧
      Application.replaceAll evaluate (unaryText first links) = .ok (chainText s replaced) := by
  obtain ⟨hfirst, hform⟩ := List.forall_mem_cons.1 hform
  obtain ⟨hfirstReplaceable, hreplaceable⟩ := List.forall_mem_cons.1 hreplaceable
  have hlength : links.length < (unaryText first links).length := by
    have hlinks := length_linkText links
    have hterm := length_term_pos first
    rw [unaryText, List.length_append]
    omega
  obtain ⟨s, left, hvalue, hleft, hreplaced⟩ := exists_replaceFirst_term hfirst hfirstReplaceable
    isSkipped_nil rfl (Nat.zero_lt_of_lt hlength) (endsNumeral_linkText links)
  obtain ⟨replaced, hvalues, hlinks⟩ := exists_replaceFirst_links
    (fun link hlink => hform link.2 (List.mem_map_of_mem hlink))
    (fun link hlink => hreplaceable link.2 (List.mem_map_of_mem hlink))
    (isSkipped_nil.signed s) (show links.length ≤ left by omega)
  refine ⟨s, replaced, ?_, ?_⟩
  · rw [linkValue, unaryValue, linkValue, hvalue, hvalues]
    rfl
  · rw [Application.replaceAll, chainText_eq]
    exact hreplaced.trans hlinks

end Expression

end MatrixCalculator
