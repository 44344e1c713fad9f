import MatrixCalculator.Proofs.Expression.TypedNumerals

/-!
# Entered lexemes

A typed expression is a sequence of lexemes with blanks between them, and what is entered
of it are the lexemes with nothing between them.  Entering changes some symbols, but not
what they are read as, so a lexeme stays the text of its token.
-/

namespace MatrixCalculator.Scalar

open Expression Numeral Outcome

variable {text piece tail : Text} {token : Token} {tokens : List Token} {offset : Nat}
variable {found rest : List Lexeme} {c d : Char}

/-! ## Lexemes by themselves -/

structure IsSymbol (token : Token) (c : Char) : Prop where
  isBlank : Text.isBlank c = false
  isDigit : c.isDigit = false
  ne_point : c ≠ '.'
  isAlpha : c.isAlpha = false
  symbolToken? : symbolToken? c = some token

inductive IsLexeme : Token → Text → Prop
  | numeral (s : TypedNumeral) : IsLexeme (.number s.value) s.text
  | word {c : Char} {word : Text} {token : Token} (hletters : ∀ d ∈ c :: word, d.isAlpha = true)
      (htoken : wordToken (c :: word) = .ok token) : IsLexeme token (c :: word)
  | symbol {c : Char} {token : Token} (hc : IsSymbol token c) : IsLexeme token [c]

theorem enterChar_canonical (c : Char) : Display.enterChar .canonical c =
    if c = Symbol.minus then '-' else if c = '*' then Symbol.times
    else if c = '/' then Symbol.divide else c := by
  rw [Display.enterChar]
  simp [Separators.canonical]

theorem isLayout_canonical (c : Char) : Display.isLayout .canonical c = Text.isBlank c := by
  simp [Display.isLayout, Separators.canonical]

theorem enter_word {word : Text} (hletters : ∀ c ∈ word, c.isAlpha = true) :
    Display.enter .canonical word = word := by
  refine enter_of_forall fun c hc => ?_
  have hletter := hletters c hc
  refine ⟨(isLayout_canonical c).trans (isBlank_of_isAlpha hletter), ?_⟩
  have hne : ∀ d, d.isAlpha = false → c ≠ d := by
    rintro d hd rfl
    rw [hletter] at hd
    cases hd
  rw [enterChar_canonical, if_neg (hne _ (by decide)), if_neg (hne _ (by decide)),
    if_neg (hne _ (by decide))]

theorem enter_symbol (hblank : Text.isBlank c = false) :
    Display.enter .canonical [c] = [Display.enterChar .canonical c] := by
  simp [Display.enter, isLayout_canonical, hblank]

/-- A symbol of the display is the same token as the one that it is entered as. -/
theorem IsSymbol.enterChar (hc : IsSymbol token c) :
    IsSymbol token (Display.enterChar .canonical c) := by
  have htoken := hc.symbolToken?
  rw [enterChar_canonical]
  split
  · next heq =>
    rw [heq] at htoken
    exact ⟨by decide, by decide, by decide, by decide, htoken⟩
  split
  · next heq =>
    rw [heq] at htoken
    exact ⟨by decide, by decide, by decide, by decide, htoken⟩
  split
  · next heq =>
    rw [heq] at htoken
    exact ⟨by decide, by decide, by decide, by decide, htoken⟩
  · exact hc

/-- How a lexeme begins once it has been entered. -/
theorem IsLexeme.enter_cases (hlexeme : IsLexeme token piece)
    (htext : Display.enter .canonical piece = d :: tail) :
    (∃ s : TypedNumeral, piece = s.text ∧ token = .number s.value ∧ (d.isDigit = true ∨ d = '.')) ∨
    ((∀ c ∈ d :: tail, c.isAlpha = true) ∧ piece = d :: tail ∧ wordToken (d :: tail) = .ok token) ∨
    IsSymbol token d ∧ tail = [] := by
  cases hlexeme with
  | numeral s =>
    rw [enter_typed] at htext
    obtain ⟨c, others, hs, hc⟩ := s.exists_cons
    rw [htext] at hs
    obtain ⟨rfl, -⟩ := List.cons.inj hs
    exact .inl ⟨s, rfl, rfl, hc⟩
  | word hletters htoken =>
    rw [enter_word hletters] at htext
    rw [htext] at hletters htoken
    exact .inr (.inl ⟨hletters, htext, htoken⟩)
  | symbol hc =>
    rw [enter_symbol hc.isBlank] at htext
    obtain ⟨rfl, rfl⟩ := List.cons.inj htext
    exact .inr (.inr ⟨hc.enterChar, rfl⟩)

theorem IsLexeme.wordToken_eq (hlexeme : IsLexeme token piece)
    (hletters : ∀ c ∈ piece, c.isAlpha = true) :
    wordToken piece = .ok token := by
  cases hlexeme with
  | numeral s =>
    obtain ⟨c, others, htext, hc⟩ := s.exists_cons
    have hletter := hletters c (htext ▸ List.mem_cons_self)
    rcases hc with hc | rfl
    · rw [isDigit_of_isAlpha hletter] at hc
      cases hc
    · cases hletter
  | word _ htoken => exact htoken
  | symbol hc =>
    have hletter := hletters _ List.mem_cons_self
    rw [hc.isAlpha] at hletter
    cases hletter

section Heads

variable (hlexeme : IsLexeme token piece) (htext : Display.enter .canonical piece = d :: tail)

include hlexeme htext

/-- What begins as a numeral is one. -/
theorem IsLexeme.of_numeral (hd : d.isDigit = true ∨ d = '.') :
    piece = d :: tail ∧ ∃ y, token = .number y := by
  rcases hlexeme.enter_cases htext with ⟨s, rfl, htoken, -⟩ | ⟨hletters, -, -⟩ | ⟨hsymbol, -⟩
  · rw [enter_typed] at htext
    exact ⟨htext, _, htoken⟩
  · have hletter := hletters d List.mem_cons_self
    rcases hd with hd | rfl
    · rw [isDigit_of_isAlpha hletter] at hd
      cases hd
    · cases hletter
  · rcases hd with hd | hd
    · rw [hsymbol.isDigit] at hd
      cases hd
    · exact absurd hd hsymbol.ne_point

/-- What begins with a letter is a word. -/
theorem IsLexeme.of_letter (hd : d.isAlpha = true) :
    piece = d :: tail ∧ (∀ c ∈ d :: tail, c.isAlpha = true) ∧
      wordToken (d :: tail) = .ok token := by
  rcases hlexeme.enter_cases htext with ⟨-, -, -, hnumeral⟩ | ⟨hletters, hpiece, htoken⟩ |
    ⟨hsymbol, -⟩
  · rcases hnumeral with hdigit | rfl
    · rw [isDigit_of_isAlpha hd] at hdigit
      cases hdigit
    · cases hd
  · exact ⟨hpiece, hletters, htoken⟩
  · rw [hsymbol.isAlpha] at hd
    cases hd

theorem IsLexeme.of_sign (hd : d = '-' ∨ d = '+') :
    tail = [] ∧ (token = .operator .add ∨ token = .operator .sub) := by
  rcases hlexeme.enter_cases htext with ⟨-, -, -, hnumeral⟩ | ⟨hletters, -, -⟩ | ⟨hsymbol, htail⟩
  · rcases hd with rfl | rfl <;> rcases hnumeral with h | h <;> cases h
  · have hletter := hletters d List.mem_cons_self
    rcases hd with rfl | rfl <;> cases hletter
  · refine ⟨htail, ?_⟩
    have htoken := hsymbol.symbolToken?
    rcases hd with rfl | rfl
    · exact .inr (Option.some.inj htoken).symm
    · exact .inl (Option.some.inj htoken).symm

end Heads

theorem IsLexeme.ne_nil (hlexeme : IsLexeme token piece) : piece ≠ [] := by
  cases hlexeme with
  | numeral s => exact s.text_ne_nil
  | word | symbol => exact List.cons_ne_nil _ _

theorem IsLexeme.enter_ne_nil (hlexeme : IsLexeme token piece) :
    Display.enter .canonical piece ≠ [] := by
  cases hlexeme with
  | numeral s =>
    rw [enter_typed]
    exact s.text_ne_nil
  | word hletters =>
    rw [enter_word hletters]
    exact List.cons_ne_nil _ _
  | symbol hc =>
    rw [enter_symbol hc.isBlank]
    exact List.cons_ne_nil _ _

/-! ## Words -/

/-- The words of the grammar. -/
def vocabulary : List Text :=
  ['e'] :: Symbol.modulo :: infinityWord :: NamedFunction.spellings.map Prod.fst

theorem mem_vocabulary {word : Text} (htoken : wordToken word = .ok token) :
    word ∈ vocabulary := by
  rw [wordToken] at htoken
  split at htoken
  · next f hname =>
    obtain ⟨entry, hfound, -⟩ := Option.map_eq_some_iff.1 hname
    have hentry := List.find?_some hfound
    rw [decide_eq_true_eq] at hentry
    have hmem := List.mem_map_of_mem (f := Prod.fst) (List.mem_of_find?_eq_some hfound)
    rw [hentry] at hmem
    exact List.mem_cons_of_mem _ (List.mem_cons_of_mem _ (List.mem_cons_of_mem _ hmem))
  split at htoken
  · next heq => simp [vocabulary, heq]
  split at htoken
  · next heq => simp [vocabulary, heq]
  split at htoken
  · next heq => simp [vocabulary, heq]
  · cases htoken

/-- Two words in succession are no word, however they go on. -/
theorem not_mem_vocabulary {left right more : Text} (hleft : left ∈ vocabulary)
    (hright : right ∈ vocabulary) : left ++ right ++ more ∉ vocabulary := by
  -- A word goes on with a mark for degrees at most, and no word begins with the mark.
  have hends : ∀ left ∈ vocabulary, ∀ word ∈ vocabulary, left.isPrefixOf word = true →
      word.drop left.length ∈ [[], ['d']] := by decide +kernel
  have hbegins : ∀ right ∈ vocabulary, right ≠ [] ∧ right.head? ≠ some 'd' ∨ right.length = 3 := by
    decide +kernel
  intro hword
  rw [List.append_assoc] at hword
  have hrest := hends left hleft _ hword (List.isPrefixOf_iff_prefix.2 (List.prefix_append _ _))
  rw [List.drop_left] at hrest
  have hlength : right.length ≤ 1 := by
    have hshort : (right ++ more).length ≤ 1 := by
      simp only [List.mem_cons, List.not_mem_nil, or_false] at hrest
      rcases hrest with hrest | hrest <;> rw [hrest] <;> decide
    rw [List.length_append] at hshort
    omega
  rcases hbegins right hright with ⟨hne, hhead⟩ | hthree
  · obtain ⟨d, others, rfl⟩ := List.exists_cons_of_ne_nil hne
    simp only [List.mem_cons, List.not_mem_nil, or_false] at hrest
    rcases hrest with hrest | hrest
    · cases hrest
    · obtain ⟨rfl, -⟩ := List.cons.inj hrest
      exact hhead rfl
  · omega

theorem exists_error_of_wordToken {word : Text} (hword : word ∉ vocabulary) :
    ∃ cause, wordToken word = .error cause := by
  cases htoken : wordToken word with
  | ok token => exact absurd (mem_vocabulary htoken) hword
  | error cause => exact ⟨cause, rfl⟩

/-- Only the constant is a word that begins like an exponent. -/
theorem eq_constant_of_wordToken {mark : Char} (hmark : mark = 'e' ∨ mark = 'E')
    (htoken : wordToken (mark :: tail) = .ok token) :
    tail = [] ∧ mark = 'e' ∧ token = .constant .e := by
  have hwords : ∀ word ∈ vocabulary, word.head? = some 'e' ∨ word.head? = some 'E' →
      word = ['e'] := by decide
  have hword := hwords _ (mem_vocabulary htoken) (by rcases hmark with rfl | rfl <;> simp)
  cases hword
  exact ⟨rfl, rfl, (Except.ok.inj htoken).symm⟩

/-! ## Lexemes with nothing between them -/

def entered (found : List Lexeme) : Text :=
  found.flatMap fun lexeme => Display.enter .canonical lexeme.text

/-- Whether the texts of some lexemes are those of their tokens. -/
def AreLexemes (found : List Lexeme) : Prop :=
  ∀ lexeme ∈ found, IsLexeme lexeme.token lexeme.text

/-- What is entered of a text are its lexemes, with nothing between them. -/
theorem enter_eq_entered (hscans : Scans text tokens)
    (hfound : lexemesFrom offset text = .ok found) :
    AreLexemes found ∧ Display.enter .canonical text = entered found := by
  have hstep : ∀ {piece rest token offset found}, ScansAs piece token rest →
      IsLexeme token piece → lexemesFrom offset (piece ++ rest) = .ok found →
      (∀ {offset found}, lexemesFrom offset rest = .ok found →
        AreLexemes found ∧ Display.enter .canonical rest = entered found) →
      AreLexemes found ∧ Display.enter .canonical (piece ++ rest) = entered found := by
    intro piece rest token offset found hpiece hlexeme hfound hrest
    rw [hpiece.lexemesFrom_eq] at hfound
    obtain ⟨others, hothers, rfl⟩ := map_eq_ok_iff.1 hfound
    obtain ⟨hlexemes, htext⟩ := hrest hothers
    refine ⟨List.forall_mem_cons.2 ⟨hlexeme, hlexemes⟩, ?_⟩
    rw [Display.enter_append, htext]
    rfl
  induction hscans generalizing offset found with
  | nil =>
    rw [lexemesFrom_nil] at hfound
    cases hfound
    exact ⟨nofun, rfl⟩
  | blank hc _ ih =>
    rw [lexemesFrom.eq_def] at hfound
    dsimp only at hfound
    rw [if_pos hc] at hfound
    rw [enter_cons_of_blank hc]
    exact ih hfound
  | numeral s hends _ ih => exact hstep (scansAs_typed hends) (.numeral s) hfound ih
  | word hletters htoken hends _ ih =>
    have hc := hletters _ List.mem_cons_self
    exact hstep (scansAs_word hletters (isBlank_of_isAlpha hc) (isDigit_of_isAlpha hc)
      (ne_point_of_isAlpha hc) htoken hends) (.word hletters htoken) hfound ih
  | symbol hblank hdigit hpoint halpha htoken _ ih =>
    exact hstep (scansAs_symbol hblank hdigit hpoint halpha htoken)
      (.symbol ⟨hblank, hdigit, hpoint, halpha, htoken⟩) hfound ih

/-- The lexeme that an entered text begins with. -/
theorem exists_of_entered (hlexemes : AreLexemes found) (htext : entered found = d :: tail) :
    ∃ first rest others, found = first :: rest ∧ AreLexemes rest ∧
      IsLexeme first.token first.text ∧ Display.enter .canonical first.text = d :: others ∧
      tail = others ++ entered rest := by
  cases found with
  | nil => cases htext
  | cons first rest =>
    obtain ⟨hfirst, hrest⟩ := List.forall_mem_cons.1 hlexemes
    obtain ⟨e, others, hothers⟩ := List.exists_cons_of_ne_nil hfirst.enter_ne_nil
    have hsplit : entered (first :: rest) = Display.enter .canonical first.text ++ entered rest :=
      rfl
    rw [hsplit, hothers, List.cons_append] at htext
    obtain ⟨rfl, rfl⟩ := List.cons.inj htext
    exact ⟨first, rest, others, rfl, hrest, hfirst, hothers, rfl⟩

end MatrixCalculator.Scalar
