import MatrixCalculator.Proofs.Expression.TypedLiterals
import MatrixCalculator.Proofs.Expression.TypedNumerals

/-!
# Chains of terms

Once its groups have been replaced an expression is a chain of terms: texts that denote
operands, or that begin with the word for what is not a number and denote nothing.  A
hyphen behind that word is no operator, so such a term may go on over the ones behind it.
Still one of the operands that are found begins with the word, and reading that one fails.
-/

namespace MatrixCalculator.Expression

open Chain Numeral Outcome Scalar Text

/-- A numeral that passes as it is typed: there is no plus sign in it, which would be an
operator, and no small mark behind a point, which could be the constant. -/
structure PlainNumeral extends TypedNumeral where
  plus_not_mem : '+' ∉ toTypedNumeral.text
  point_mark_not_isInfix : ¬['.', 'e'] <:+: toTypedNumeral.text

/-- The fault of the word for what is not a number, which is no word of expressions. -/
def undefinedFault : Fault := .unknownSymbol notANumberWord

def linkedText (first : Text) : Links Text → Text
  | [] => first
  | (op, next) :: links => first ++ (op.symbol ++ linkedText next links)

def allDefined {α : Type} (first : Option α) (links : Links (Option α)) : Bool :=
  first.isSome && links.all fun link => link.2.isSome

theorem allDefined_concat {α : Type} (first : Option α) (links : Links (Option α)) (op : Operator)
    (x : α) : allDefined first (links ++ [(op, some x)]) = allDefined first links := by
  simp [allDefined]

variable {limit : Nat} {scope scope' : Set (Text → Except Fault Text)}
  {evaluate : Text → Except Fault Text} {text next : Text} {x : Operand}
  {links : Links Text} {value? : Option Operand} {values : Links (Option Operand)} {op : Operator}
  {previous : Option Char}

/-! ## Terms -/

/-- Whether a text is the text of an operand, whichever way fields are evaluated.  A scalar
one may have a sign in front of it. -/
def ReadsAs (limit : Nat) (scope : Set (Text → Except Fault Text)) (text : Text) : Operand → Prop
  | .scalar x => '[' ∉ text ∧ x.isNaN = false ∧ ∃ tokens, Lexes text tokens ∧
      Derives 0 .unary tokens x
  | .matrix m => ∀ evaluate ∈ scope, operand limit evaluate text = .ok (.matrix m)

theorem ReadsAs.operand_eq (hreads : ReadsAs limit scope text x) (hscope : evaluate ∈ scope) :
    operand limit evaluate text = .ok x := by
  cases x with
  | matrix m => exact hreads evaluate hscope
  | scalar x =>
    obtain ⟨hliteral, hnumber, tokens, htokens, hderives⟩ := hreads
    rw [operand_of_no_literal hliteral,
      evaluate_of_derives htokens hderives.factor.product (Nat.zero_le limit), hnumber,
      if_neg Bool.false_ne_true, map_ok]

/-- Whether a text is a term: an operand wherever one may begin, which has a value or fails
at the word for what is not a number. -/
structure Reads (limit : Nat) (scope : Set (Text → Except Fault Text)) (text : Text)
    (value? : Option Operand) : Prop where
  ne_nil : text ≠ []
  quiet : Fits IsQuiet text
  keepsLiterals : ∀ evaluate ∈ scope, KeepsLiterals evaluate text
  ungrouped : '(' ∉ text ∧ ')' ∉ text
  solid : ∀ previous, endsOperand previous = false → Follows IsSolid previous text
  defined : ∀ x, value? = some x → ReadsAs limit scope text x
  undefined : value? = none → text.head? ≠ some '[' ∧ ∀ offset rest, EndsWord rest →
    lexemesFrom offset (text ++ rest) = .error undefinedFault

namespace Reads

variable {next? : Option Operand}

/-- A term that denotes nothing is no operand. -/
theorem operand_eq_error (hterm : Reads limit scope text none) :
    operand limit evaluate text = .error undefinedFault := by
  obtain ⟨hhead, hfault⟩ := hterm.undefined rfl
  have hstart : ¬startsWith Literal.opening text = true := by
    intro hstarts
    obtain ⟨rest, hrest⟩ := Option.isSome_iff_exists.1 hstarts
    rw [after?_eq_some_iff.1 hrest] at hhead
    exact hhead rfl
  have hnil := hfault 0 [] endsWord_nil
  rw [List.append_nil] at hnil
  rw [operand, if_neg hstart, Scalar.evaluate, lexemes, hnil, error_bind, map_error]

theorem ending_eq (hterm : Reads limit scope text value?) (previous : Option Char) :
    ending previous text = ending none text := by
  obtain ⟨c, others, rfl⟩ := List.exists_cons_of_ne_nil hterm.ne_nil
  rfl

theorem follows_hyphen (hterm : Reads limit scope text value?) (previous : Option Char)
    (hbegins : endsOperand previous = false) : Follows IsSolid previous ('-' :: text) :=
  ⟨isSolid_minus hbegins, hterm.solid _ rfl⟩

/-- A term that denotes nothing goes on over a hyphen and another term, if it does not end
as an operand. -/
theorem extend (hterm : Reads limit scope text none)
    (hends : endsOperand (ending none text) = false) (hnext : Reads limit scope next next?) :
    Reads limit scope (text ++ '-' :: next) none where
  ne_nil := by simp
  quiet := hterm.quiet.append fun previous => ⟨isQuiet_minus, hnext.quiet _⟩
  keepsLiterals evaluate hscope := (hterm.keepsLiterals evaluate hscope).append
    ((keepsLiterals_singleton (by decide)).append (hnext.keepsLiterals evaluate hscope))
  ungrouped := by simp [hterm.ungrouped, hnext.ungrouped]
  solid := by
    intro previous hbegins
    have hhyphen : endsOperand (ending previous text) = false := hterm.ending_eq previous ▸ hends
    exact follows_append.2 ⟨hterm.solid previous hbegins, hnext.follows_hyphen _ hhyphen⟩
  defined := nofun
  undefined := by
    intro _
    obtain ⟨hhead, hfault⟩ := hterm.undefined rfl
    refine ⟨?_, fun offset rest _ => ?_⟩
    · obtain ⟨c, others, rfl⟩ := List.exists_cons_of_ne_nil hterm.ne_nil
      exact hhead
    · have hhyphen : EndsWord ('-' :: (next ++ rest)) := by
        rintro _ ⟨⟩
        decide
      rw [List.append_assoc]
      exact hfault offset _ hhyphen

end Reads

/-! ## Terms that are written -/

theorem reads_signed (s : SignedSpelling) : Reads limit scope s.text (some (.scalar s.value)) where
  ne_nil := by
    obtain ⟨c, others, htext, -⟩ := exists_cons_signed s
    simp [htext]
  quiet := fits_signed s
  keepsLiterals _ _ := keepsLiterals_of_not_mem (not_mem_signed s (by decide))
  ungrouped := ⟨not_mem_signed s (by decide), not_mem_signed s (by decide)⟩
  solid := (isPiece_signed s).solid
  defined := by
    rintro _ ⟨⟩
    have hlexes := lexes_signed s endsNumeral_nil lexes_nil
    rw [List.append_nil, List.append_nil] at hlexes
    exact ⟨not_mem_signed s (by decide), s.not_isNaN_value, _, hlexes, derives_signed s⟩
  undefined := nofun

theorem isQuiet_digit {c : Char} (hc : c.isDigit = true) : IsQuiet previous c :=
  admitsValues_isQuiet.digit previous c hc

/-- A small mark stands behind a digit. -/
theorem PlainNumeral.isQuiet_mark (s : PlainNumeral) {e : TypedExponent}
    (hexponent : s.exponent = some e) :
    IsQuiet (ending previous (s.whole ++ s.fractionText)) e.mark := by
  rcases e.isMark with hmark | hmark
  · rcases ending_mantissa s.toTypedNumeral with ⟨c, hc, hending⟩ | hfraction
    · have hsame : ending previous (s.whole ++ s.fractionText) = some c := by
        cases hmantissa : s.whole ++ s.fractionText with
        | nil =>
          rw [hmantissa] at hending
          cases hending
        | cons d others =>
          rw [hmantissa] at hending
          exact hending
      rw [hsame, hmark]
      exact admitsValues_isQuiet.mark c 'e' hc (.inl rfl)
    · refine absurd ⟨s.whole, e.sign ++ e.digits.text, ?_⟩ s.point_mark_not_isInfix
      simp [TypedNumeral.text, TypedNumeral.fractionText, TypedNumeral.exponentText, hfraction,
        hexponent, TypedExponent.text, hmark]
  · rw [hmark]
    exact isQuiet (by decide) (by decide) (by decide)

theorem PlainNumeral.fits_text (s : PlainNumeral) : Fits IsQuiet s.text := by
  have hmantissa : Fits IsQuiet (s.whole ++ s.fractionText) := by
    refine fits_of_forall fun before c hc => ?_
    rcases s.isDigit_mantissa c hc with hdigit | rfl
    · exact isQuiet_digit hdigit
    · exact admitsValues_isQuiet.point before
  intro previous
  rw [TypedNumeral.text, ← List.append_assoc]
  refine follows_append.2 ⟨hmantissa previous, ?_⟩
  cases hexponent : s.exponent with
  | none =>
    rw [TypedNumeral.exponentText, hexponent]
    trivial
  | some e =>
    have hsign : Fits IsQuiet e.sign := by
      rcases e.isSign with h | h | h
      · rw [h]
        exact fits_nil
      · rw [h]
        exact fun _ => ⟨isQuiet_minus, trivial⟩
      · exact absurd h (sign_ne_plus hexponent s.plus_not_mem)
    have hdigits : Fits IsQuiet e.digits.text :=
      fits_of_forall fun before c hc => isQuiet_digit (e.digits.isDigit c hc)
    rw [TypedNumeral.exponentText, hexponent]
    exact ⟨s.isQuiet_mark hexponent, hsign.append hdigits _⟩

/-- A numeral is a term of its value. -/
theorem reads_numeral (s : PlainNumeral) : Reads limit scope s.text (some (.scalar s.value)) where
  ne_nil := s.text_ne_nil
  quiet := s.fits_text
  keepsLiterals _ _ := keepsLiterals_of_not_mem (not_mem_typed (by decide) (by decide))
  ungrouped := ⟨not_mem_typed (by decide) (by decide), not_mem_typed (by decide) (by decide)⟩
  solid previous _ := fits_solid_typed s.plus_not_mem previous
  defined := by
    rintro _ ⟨⟩
    have hlexes := lexes_typed (endsNumeral_nil.endsTyped s.toTypedNumeral) lexes_nil
    rw [List.append_nil] at hlexes
    exact ⟨not_mem_typed (by decide) (by decide), not_isNaN_typed _, _, hlexes,
      (derivesBase_number 0 s.value).operand⟩
  undefined := nofun

/-- The word for what is not a number is no word of scalar expressions. -/
theorem lexemesFrom_notANumber {rest : Text} (hrest : EndsWord rest) (offset : Nat) :
    lexemesFrom offset (notANumberWord ++ rest) = .error undefinedFault := by
  have hletters : ∀ c ∈ ['a', 'N'], c.isAlpha = true := List.all_iff_forall_prop.1 (by decide)
  have hword : (['a', 'N'] ++ rest).takeWhile Char.isAlpha = ['a', 'N'] :=
    takeWhile_run hletters hrest
  have hscan : scanToken offset 'N' (['a', 'N'] ++ rest) = .error undefinedFault := by
    rw [scanToken, if_neg (by decide), if_pos (by decide), hword]
    rfl
  change lexemesFrom offset ('N' :: (['a', 'N'] ++ rest)) = _
  rw [lexemesFrom.eq_def]
  dsimp only
  rw [if_neg (by decide), hscan, error_bind]

/-- What is written of a number is read as the number shown. -/
theorem readsAs_write {x : Float} (hx : x.isNaN = false) :
    ReadsAs limit scope (write x) (.scalar (shown x)) := by
  have hnumber : (shown x).isNaN = false := not_isNaN_of_evaluate (Scalar.evaluate_write hx 0)
  refine ⟨not_mem_number x (by decide), hnumber, ?_⟩
  rcases kind_cases x with hkind | hkind | hkind
  · obtain ⟨s, htext, hvalue⟩ := spellsDouble_write hkind
    rw [← htext, ← hvalue]
    have hterm : Reads limit scope s.text _ := reads_signed s
    exact (hterm.defined _ rfl).2.2
  · rw [shown_of_not_isFinite (not_isFinite_of_isInf hkind)]
    exact exists_lexes_infinite hkind
  · rw [hx] at hkind
    cases hkind

/-- The number that is read where a double has been written, if it is one. -/
def shown? (x : Float) : Option Float := if x.isNaN then none else some (shown x)

theorem shown?_of_isNaN {x : Float} (hx : x.isNaN = true) : shown? x = none := by
  rw [shown?, if_pos hx]

theorem shown?_of_not_isNaN {x : Float} (hx : x.isNaN = false) : shown? x = some (shown x) := by
  rw [shown?, hx, if_neg Bool.false_ne_true]

theorem shown?_eq_some_iff {x y : Float} : shown? x = some y ↔ x.isNaN = false ∧ shown x = y := by
  cases hx : x.isNaN with
  | true => simp [shown?_of_isNaN hx]
  | false => simp [shown?_of_not_isNaN hx]

/-- What is written of a double is a term.  It denotes nothing if the double is not a
number. -/
theorem reads_write (x : Float) : Reads limit scope (write x) ((shown? x).map .scalar) where
  ne_nil := write_ne_nil x
  quiet := fits_operand (.scalar x)
  keepsLiterals _ _ := keepsLiterals_of_not_mem (not_mem_number x (by decide))
  ungrouped := ⟨not_mem_number x (by decide), not_mem_number x (by decide)⟩
  solid _ hbegins := follows_operand admitsValues_isSolid (.scalar x) (isSolid_minus hbegins)
  defined y hy := by
    obtain ⟨_, hvalue, rfl⟩ := Option.map_eq_some_iff.1 hy
    obtain ⟨hnumber, rfl⟩ := shown?_eq_some_iff.1 hvalue
    exact readsAs_write hnumber
  undefined hnone := by
    cases hx : x.isNaN with
    | true =>
      rw [write_of_isNaN hx]
      exact ⟨by decide, fun offset rest hrest => lexemesFrom_notANumber hrest offset⟩
    | false =>
      rw [shown?_of_not_isNaN hx] at hnone
      cases hnone

theorem reads_literal {m : Matrix Float} (hm : m.HasEntries)
    (hscope : ∀ evaluate ∈ scope, ∀ x, evaluate (write x) = .ok (write x)) :
    Reads limit scope (Literal.write m) (some (.matrix (m.map shown))) where
  ne_nil := List.cons_ne_nil _ _
  quiet := fits_operand (.matrix m)
  keepsLiterals evaluate hmem := keepsLiterals_write hm.1 hm.2 (hscope evaluate hmem)
  ungrouped := ⟨not_mem_operand (.matrix m) (by decide), not_mem_operand (.matrix m) (by decide)⟩
  solid := (isPiece_literal m).solid
  defined := by
    rintro _ ⟨⟩
    exact fun evaluate hmem => operand_matrix hm (hscope evaluate hmem)
  undefined := nofun

/-- A term with a sign in front of it. -/
theorem Reads.minus {x? : Option Float} (hterm : Reads limit scope text (x?.map .scalar)) :
    Reads limit scope ('-' :: text) ((x?.map (-·)).map .scalar) where
  ne_nil := List.cons_ne_nil _ _
  quiet _ := ⟨isQuiet_minus, hterm.quiet _⟩
  keepsLiterals evaluate hscope :=
    (keepsLiterals_singleton (by decide)).append (hterm.keepsLiterals evaluate hscope)
  ungrouped := by simp [hterm.ungrouped]
  solid := hterm.follows_hyphen
  defined := by
    intro y hy
    cases x? with
    | none => cases hy
    | some x =>
      cases hy
      obtain ⟨hliteral, hnumber, tokens, htokens, hderives⟩ := hterm.defined _ rfl
      have hminus : Lexes ('-' :: text) (.operator .sub :: tokens) :=
        lexes_symbol (by decide) (by decide) (by decide) (by decide) (by rfl) htokens
      exact ⟨by simp [hliteral], (isNaN_neg x).trans hnumber, _, hminus, hderives.minus⟩
  undefined := by
    intro hnone
    obtain rfl : x? = none := by simpa using hnone
    refine ⟨by simp, fun offset rest hrest => ?_⟩
    have hminus : ScansAs ['-'] (.operator .sub) (text ++ rest) :=
      scansAs_symbol (by decide) (by decide) (by decide) (by decide) (by rfl)
    rw [List.cons_append, ← List.singleton_append, hminus.lexemesFrom_eq,
      (hterm.undefined rfl).2 _ rest hrest, map_error]

/-! ## Chains -/

/-- Whether a chain of texts is one of terms.  A hyphen is an operator behind every term
that denotes something. -/
inductive ChainReads (limit : Nat) (scope : Set (Text → Except Fault Text)) :
    Text → Links Text → Option Operand → Links (Option Operand) → Prop
  | single {text : Text} {value? : Option Operand} (hterm : Reads limit scope text value?) :
      ChainReads limit scope text [] value? []
  | link {text next : Text} {links : Links Text} {value? next? : Option Operand}
      {values : Links (Option Operand)} (op : Operator) (hterm : Reads limit scope text value?)
      (hends : op = .sub → value? ≠ none → endsOperand (ending none text) = true)
      (hrest : ChainReads limit scope next links next? values) :
      ChainReads limit scope text ((op, next) :: links) value? ((op, next?) :: values)

theorem Reads.mono (hterm : Reads limit scope text value?) (hscope : scope' ⊆ scope) :
    Reads limit scope' text value? where
  ne_nil := hterm.ne_nil
  quiet := hterm.quiet
  keepsLiterals evaluate hmem := hterm.keepsLiterals evaluate (hscope hmem)
  ungrouped := hterm.ungrouped
  solid := hterm.solid
  defined x hx := by
    have hreads := hterm.defined x hx
    cases x with
    | scalar x => exact hreads
    | matrix m => exact fun evaluate hmem => hreads evaluate (hscope hmem)
  undefined := hterm.undefined

namespace ChainReads

theorem first (hchain : ChainReads limit scope text links value? values) :
    Reads limit scope text value? := by
  cases hchain <;> assumption

theorem mono (hchain : ChainReads limit scope text links value? values)
    (hscope : scope' ⊆ scope) : ChainReads limit scope' text links value? values := by
  induction hchain with
  | single hterm => exact .single (hterm.mono hscope)
  | link op hterm hends _ ih => exact .link op (hterm.mono hscope) hends ih

/-- A chain with another term in place of its first one, behind which a hyphen is an
operator if it has been one. -/
theorem replaceFirst {text' : Text} {value?' : Option Operand}
    (hchain : ChainReads limit scope text links value? values)
    (hterm : Reads limit scope text' value?')
    (hends : value?' ≠ none → value? ≠ none ∧ ending none text' = ending none text) :
    ChainReads limit scope text' links value?' values := by
  cases hchain with
  | single _ => exact .single hterm
  | link op _ hbehind hrest =>
    refine .link op hterm (fun hop hne => ?_) hrest
    obtain ⟨hdefined, hending⟩ := hends hne
    exact hending ▸ hbehind hop hdefined

/-- A chain with one more term behind it. -/
theorem concat {next? : Option Operand}
    (hchain : ChainReads limit scope text links value? values)
    (hnext : Reads limit scope next next?) (hop : op ≠ .sub) :
    ChainReads limit scope text (links ++ [(op, next)]) value? (values ++ [(op, next?)]) := by
  induction hchain with
  | single hterm => exact .link op hterm (fun h => absurd h hop) (.single hnext)
  | link op hterm hends _ ih => exact .link op hterm hends ih

end ChainReads

/-- The text of a chain of terms has nothing in it that a pass could find. -/
theorem ChainReads.quiet (hchain : ChainReads limit scope text links value? values) :
    Fits IsQuiet (linkedText text links) := by
  induction hchain with
  | single hterm => exact hterm.quiet
  | link op hterm _ _ ih => exact hterm.quiet.append ((fits_symbol op).append ih)

theorem ChainReads.keepsLiterals (hchain : ChainReads limit scope text links value? values)
    (hscope : evaluate ∈ scope) : KeepsLiterals evaluate (linkedText text links) := by
  induction hchain with
  | single hterm => exact hterm.keepsLiterals evaluate hscope
  | link op hterm _ _ ih =>
    have hsymbol : KeepsLiterals evaluate op.symbol :=
      keepsLiterals_of_not_mem (not_mem_symbol op (by decide))
    exact (hterm.keepsLiterals evaluate hscope).append (hsymbol.append ih)

theorem ChainReads.ungrouped (hchain : ChainReads limit scope text links value? values) :
    '(' ∉ linkedText text links ∧ ')' ∉ linkedText text links := by
  induction hchain with
  | single hterm => exact hterm.ungrouped
  | link op hterm _ _ ih =>
    have hopen : '(' ∉ op.symbol := not_mem_symbol op (by decide)
    have hclose : ')' ∉ op.symbol := not_mem_symbol op (by decide)
    simp [linkedText, hterm.ungrouped, hopen, hclose, ih]

theorem ChainReads.ne_nil (hchain : ChainReads limit scope text links value? values) :
    linkedText text links ≠ [] := by
  cases hchain with
  | single hterm => exact hterm.ne_nil
  | link op hterm => simp [linkedText, hterm.ne_nil]

theorem passes_linkedText (hchain : ChainReads limit scope text links value? values)
    (hscope : evaluate ∈ scope) :
    passes limit evaluate (linkedText text links) =
      reduceText limit evaluate (linkedText text links) :=
  passes_eq (hchain.keepsLiterals hscope) (hchain.quiet none) hchain.ungrouped.1 hchain.ungrouped.2

theorem linkedText_concat (text next : Text) (op : Operator) (links : Links Text) :
    linkedText text (links ++ [(op, next)]) = linkedText text links ++ (op.symbol ++ next) := by
  induction links generalizing text with
  | nil => rfl
  | cons link links ih => simp [linkedText, ih]

/-- A chain goes on behind what stands in front of its first term. -/
theorem linkedText_append (front text : Text) (links : Links Text) :
    linkedText (front ++ text) links = front ++ linkedText text links := by
  cases links <;> simp [linkedText]

/-! ## What is found in a chain -/

/-- Whether every hyphen of a chain is an operator. -/
def IsSeparated (first : Text) : Links Text → Prop
  | [] => True
  | (op, next) :: links =>
    (op = .sub → endsOperand (ending none first) = true) ∧ IsSeparated next links

theorem IsSeparated.replaceFirst {text' : Text} (hseparated : IsSeparated text links)
    (hending : ending none text' = ending none text) : IsSeparated text' links := by
  cases links with
  | nil => trivial
  | cons link links => exact ⟨hending ▸ hseparated.1, hseparated.2⟩

/-- Every chain of terms can be taken for one in which every hyphen is an operator: where
one is not, the terms on both sides are one term that denotes nothing. -/
theorem ChainReads.exists_isSeparated (hchain : ChainReads limit scope text links value? values) :
    ∃ text' links' value?' values', linkedText text' links' = linkedText text links ∧
      ChainReads limit scope text' links' value?' values' ∧ IsSeparated text' links' ∧
      allDefined value?' values' = allDefined value? values ∧
      (allDefined value? values = true → text' = text ∧ links' = links) ∧
      (links' = [] → ∀ link ∈ links, link.1 = .sub) := by
  induction hchain with
  | single hterm =>
    exact ⟨_, [], _, [], rfl, .single hterm, trivial, rfl, fun _ => ⟨rfl, rfl⟩, fun _ => nofun⟩
  | @link text next links value? next? values op hterm hends hrest ih =>
    obtain ⟨next', links', next?', values', htext, hchain, hseparated, hdefined, hsame, hsub⟩ := ih
    have hrest' : allDefined value? ((op, next?) :: values) =
        (value?.isSome && allDefined next? values) := rfl
    by_cases hglued : op = .sub ∧ endsOperand (ending none text) = false
    · obtain ⟨rfl, hopen⟩ := hglued
      obtain rfl : value? = none := by
        by_contra hne
        rw [hends rfl hne] at hopen
        cases hopen
      have hending : ending none (text ++ '-' :: next') = ending none next' := by
        rw [ending_append]
        exact hchain.first.ending_eq _
      refine ⟨text ++ '-' :: next', links', none, values', ?_,
        hchain.replaceFirst (hterm.extend hopen hchain.first) nofun,
        hseparated.replaceFirst hending, rfl, nofun, fun hlinks => ?_⟩
      · rw [linkedText_append, ← List.singleton_append, linkedText_append, htext]
        rfl
      · exact List.forall_mem_cons.2 ⟨rfl, hsub hlinks⟩
    · have hoperator : op = .sub → endsOperand (ending none text) = true := by
        intro hop
        by_contra hopen
        exact hglued ⟨hop, Bool.not_eq_true _ ▸ hopen⟩
      refine ⟨text, (op, next') :: links', value?, (op, next?') :: values', ?_,
        .link op hterm hends hchain, ⟨hoperator, hseparated⟩, ?_, fun hall => ?_, nofun⟩
      · rw [linkedText, linkedText, htext]
      · exact congrArg (value?.isSome && ·) hdefined
      · rw [hrest', Bool.and_eq_true] at hall
        obtain ⟨rfl, rfl⟩ := hsame hall.2
        exact ⟨rfl, rfl⟩

/-- Splitting finds the terms of a chain in which every hyphen is an operator. -/
theorem splitAfter_linkedText (hchain : ChainReads limit scope text links value? values)
    (hseparated : IsSeparated text links) (hbegins : endsOperand previous = false) :
    splitAfter previous (linkedText text links) = ofLinks text links := by
  induction hchain generalizing previous with
  | single hterm => exact splitAfter_eq (hterm.solid previous hbegins)
  | link op hterm _ _ ih =>
    obtain ⟨hends, hseparated⟩ := hseparated
    rw [← hterm.ending_eq previous] at hends
    rw [linkedText, splitAfter_append (hterm.solid previous hbegins), splitAfter_symbol op hends,
      ih hseparated (endsOperand_symbol _ op), link, ofLinks, foldr_lengthen, List.append_nil]
    rfl

/-! ## The values of terms -/

abbrev orZero (value? : Option Operand) : Operand := value?.getD (.scalar 0)

/-- The operands that the terms of a chain denote, with the operators between them. -/
def operandChain (first : Option Operand) (links : Links (Option Operand)) : Chain Operand :=
  ofLinks (orZero first) (links.map fun link => (link.1, orZero link.2))

theorem Reads.operand_eq (hterm : Reads limit scope text value?) (hscope : evaluate ∈ scope) :
    operand limit evaluate text =
      if value?.isSome then .ok (orZero value?) else .error undefinedFault := by
  cases value? with
  | none => exact hterm.operand_eq_error
  | some x => exact (hterm.defined x rfl).operand_eq hscope

/-- The terms of a chain are read from the left, up to one that denotes nothing. -/
theorem mapM_operand_terms (hchain : ChainReads limit scope text links value? values)
    (hscope : evaluate ∈ scope) :
    (ofLinks text links).operands.mapM (operand limit evaluate) =
      if allDefined value? values then
        .ok (operandChain value? values).operands
      else .error undefinedFault := by
  induction hchain with
  | @single text value? hterm =>
    rw [ofLinks, List.map_nil, List.mapM_cons, List.mapM_nil, hterm.operand_eq hscope]
    cases value? <;> rfl
  | @link text next links value? next? values op hterm _ _ ih =>
    have hlinked : (ofLinks text ((op, next) :: links)).operands =
        text :: (ofLinks next links).operands := rfl
    rw [hlinked, List.mapM_cons, ih, hterm.operand_eq hscope]
    cases value? with
    | none => rfl
    | some x =>
      cases hrest : allDefined next? values with
      | true =>
        have hall : allDefined (some x) ((op, next?) :: values) = true := hrest
        rw [hall]
        rfl
      | false =>
        have hall : allDefined (some x) ((op, next?) :: values) = false := hrest
        rw [hall]
        rfl

theorem operators_values (hchain : ChainReads limit scope text links value? values) :
    values.map Prod.fst = links.map Prod.fst := by
  induction hchain with
  | single => rfl
  | link op _ _ _ ih => rw [List.map_cons, List.map_cons, ih]

/-- A single term stays as it is. -/
theorem reduceText_term (hterm : Reads limit scope text value?) :
    reduceText limit evaluate text = .ok text :=
  reduceText_of_atom (splitAfter_eq (hterm.solid none rfl)) rfl

/-- A chain of terms that all denote something becomes what is written of its value. -/
theorem reduceText_linkedText (hchain : ChainReads limit scope text links value? values)
    (hscope : evaluate ∈ scope) (hlinks : links ≠ []) (hdefined : allDefined value? values = true) :
    reduceText limit evaluate (linkedText text links) =
      Operand.write <$> reduce Operator.apply (operandChain value? values) := by
  obtain ⟨text', links', value?', values', htext, hchain', hseparated, -, hsame, -⟩ :=
    hchain.exists_isSeparated
  obtain ⟨rfl, rfl⟩ := hsame hdefined
  have hoperands := mapM_operand_terms hchain hscope
  rw [if_pos hdefined] at hoperands
  have hoperators : (ofLinks text' links').operators = (operandChain value? values).operators := by
    simp [ofLinks, operandChain, ← operators_values hchain, Function.comp_def]
  rw [reduceText_of_chain (splitAfter_linkedText hchain hseparated rfl)
    (by simpa [ofLinks] using hlinks) hoperands, hoperators]

/-- A chain with a term that denotes nothing fails, or is such a term itself. -/
theorem reduceText_linkedText_undefined
    (hchain : ChainReads limit scope text links value? values)
    (hscope : evaluate ∈ scope) (hdefined : allDefined value? values = false) :
    reduceText limit evaluate (linkedText text links) = .error undefinedFault ∨
      (∀ link ∈ links, link.1 = .sub) ∧ Reads limit scope (linkedText text links) none ∧
        reduceText limit evaluate (linkedText text links) = .ok (linkedText text links) := by
  obtain ⟨text', links', value?', values', htext, hchain', hseparated, hdefined', -, hsub⟩ :=
    hchain.exists_isSeparated
  rw [← htext]
  rw [hdefined] at hdefined'
  have hsplit : split (linkedText text' links') = ofLinks text' links' :=
    splitAfter_linkedText hchain' hseparated rfl
  cases hchain' with
  | @single _ value?' hterm =>
    obtain rfl : value?' = none := by
      cases value?' with
      | none => rfl
      | some x => cases hdefined'
    exact .inr ⟨hsub rfl, hterm, reduceText_term hterm⟩
  | link op hterm hends hrest =>
    have hoperands := mapM_operand_terms (.link op hterm hends hrest) hscope
    rw [hdefined', if_neg Bool.false_ne_true] at hoperands
    left
    rw [reduceText, hsplit, if_neg (by simp [isAtom, ofLinks]), hoperands, error_bind]

end MatrixCalculator.Expression
