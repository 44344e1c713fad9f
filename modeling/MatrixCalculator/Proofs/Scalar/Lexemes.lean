import MatrixCalculator.Proofs.Outcome
import MatrixCalculator.Proofs.Scalar.Numerals
import MatrixCalculator.Scalar.Evaluation

/-!
# Lexemes of numerals and operators

A text that is put together from numerals and operators is read as these numerals
and operators.  A numeral ends where the next character cannot go on with it, and
no operator begins with such a character.
-/

namespace MatrixCalculator.Scalar

open Numeral Outcome Text

variable {text rest : Text} {token : Token} {tokens : List Token}

theorem lexemesFrom_nil (offset : Nat) : lexemesFrom offset [] = .ok [] := by
  rw [lexemesFrom.eq_def]

/-- A character that is not blank begins a lexeme. -/
theorem lexemesFrom_cons {offset length : Nat} {c : Char} (hblank : Text.isBlank c = false)
    (hscan : scanToken offset c text = .ok (token, length)) :
    lexemesFrom offset (c :: text) = (do
      let rest ← lexemesFrom (offset + Text.byteLength ((c :: text).take length))
        (text.drop (length - 1))
      return ⟨token, offset, (c :: text).take length⟩ :: rest) := by
  rw [lexemesFrom.eq_def]
  simp only [hblank, hscan, ok_bind]
  rfl

/-- Whether a text is read as some tokens wherever it stands. -/
def Lexes (text : Text) (tokens : List Token) : Prop :=
  ∀ offset, ∃ lexemes, lexemesFrom offset text = .ok lexemes ∧ lexemes.map Lexeme.token = tokens

theorem lexes_nil : Lexes [] [] := fun offset => ⟨[], lexemesFrom_nil offset, rfl⟩

/-- Whether a text is scanned as a token in front of another one. -/
def ScansAs (text : Text) (token : Token) (rest : Text) : Prop :=
  ∃ c others, text = c :: others ∧ Text.isBlank c = false ∧
    ∀ offset, scanToken offset c (others ++ rest) = .ok (token, text.length)

theorem ScansAs.lexemesFrom_eq (hscans : ScansAs text token rest) (offset : Nat) :
    lexemesFrom offset (text ++ rest) =
      (⟨token, offset, text⟩ :: ·) <$> lexemesFrom (offset + byteLength text) rest := by
  obtain ⟨c, others, rfl, hblank, hscan⟩ := hscans
  rw [List.cons_append, lexemesFrom_cons hblank (hscan offset), ← List.cons_append,
    List.take_left]
  simp [map_eq_pure_bind]

theorem ScansAs.lexes (hscans : ScansAs text token rest) (hrest : Lexes rest tokens) :
    Lexes (text ++ rest) (token :: tokens) := by
  intro offset
  obtain ⟨lexemes, hlexemes, htokens⟩ := hrest (offset + byteLength text)
  refine ⟨⟨token, offset, text⟩ :: lexemes, ?_, by simp [htokens]⟩
  rw [hscans.lexemesFrom_eq, hlexemes, map_ok]

/-! ## Numerals -/

/-- Whether a text does not go on with the numeral in front of it. -/
def EndsNumeral (rest : Text) : Prop :=
  ∀ c, rest.head? = some c → c.isDigit = false ∧ c ≠ '.' ∧ c ≠ 'e' ∧ c ≠ 'E'

theorem endsNumeral_nil : EndsNumeral [] := nofun

theorem EndsNumeral.endsDigits (hrest : EndsNumeral rest) : EndsDigits rest :=
  fun c hc => (hrest c hc).1

theorem isBlank_of_isDigit {c : Char} (hc : c.isDigit = true) : Text.isBlank c = false :=
  of_isDigit (fun c => Text.isBlank c = false) (List.all_iff_forall_prop.1 (by decide)) hc

/-- Where any numeral ends, a typed one does. -/
theorem EndsNumeral.endsTyped (hrest : EndsNumeral rest) (s : TypedNumeral) : EndsTyped s rest := by
  refine ⟨hrest.endsDigits, fun _ => ⟨?_, fun _ hhead => (hrest '.' hhead).2.1 rfl⟩⟩
  cases rest with
  | nil => rfl
  | cons c rest =>
    obtain ⟨-, -, hlower, hupper⟩ := hrest c rfl
    exact if_neg (by simp [hlower, hupper])

/-- A numeral is one token. -/
theorem scansAs_typed {s : TypedNumeral} (hends : EndsTyped s rest) :
    ScansAs s.text (.number s.value) rest := by
  obtain ⟨c, others, htext, hc⟩ := s.exists_cons
  have hscan := scanNumeral_typed hends
  have hblank : Text.isBlank c = false := by
    rcases hc with hc | rfl
    · exact isBlank_of_isDigit hc
    · decide
  rw [htext, List.cons_append] at hscan
  refine ⟨c, others, htext, hblank, fun offset => ?_⟩
  rw [scanToken, if_pos hc, htext]
  exact hscan offset

theorem lexes_typed {s : TypedNumeral} (hends : EndsTyped s rest) (htokens : Lexes rest tokens) :
    Lexes (s.text ++ rest) (.number s.value :: tokens) :=
  (scansAs_typed hends).lexes htokens

theorem lexes_numeral (s : Spelling) (hrest : EndsNumeral rest) (htokens : Lexes rest tokens) :
    Lexes (s.text ++ rest) (.number s.value :: tokens) := by
  rw [← s.text_typed, ← s.value_typed]
  exact lexes_typed (hrest.endsTyped s.typed) htokens

/-! ## Operators and words -/

/-- Whether a text does not go on with a letter. -/
def EndsWord (rest : Text) : Prop := ∀ c, rest.head? = some c → c.isAlpha = false

/-- A character that is neither a letter nor part of a numeral is one token. -/
theorem scansAs_symbol {c : Char} (hblank : Text.isBlank c = false) (hdigit : c.isDigit = false)
    (hpoint : c ≠ '.') (halpha : c.isAlpha = false) (hsymbol : symbolToken? c = some token) :
    ScansAs [c] token rest := by
  refine ⟨c, [], rfl, hblank, fun offset => ?_⟩
  rw [scanToken, if_neg (by simp [hdigit, hpoint]), if_neg (by simp [halpha]), hsymbol]
  rfl

theorem lexes_symbol {c : Char} (hblank : Text.isBlank c = false) (hdigit : c.isDigit = false)
    (hpoint : c ≠ '.') (halpha : c.isAlpha = false) (hsymbol : symbolToken? c = some token)
    (htokens : Lexes rest tokens) : Lexes (c :: rest) (token :: tokens) :=
  (scansAs_symbol hblank hdigit hpoint halpha hsymbol).lexes htokens

/-- A word is one token. -/
theorem scansAs_word {c : Char} {word : Text} (hletters : ∀ d ∈ c :: word, d.isAlpha = true)
    (hblank : Text.isBlank c = false) (hdigit : c.isDigit = false) (hpoint : c ≠ '.')
    (htoken : wordToken (c :: word) = .ok token) (hrest : EndsWord rest) :
    ScansAs (c :: word) token rest := by
  have hword := takeWhile_run (fun d hd => hletters d (List.mem_cons_of_mem c hd)) hrest
  refine ⟨c, word, rfl, hblank, fun offset => ?_⟩
  rw [scanToken, if_neg (by simp [hdigit, hpoint]), if_pos (hletters c (by simp)), hword]
  simp only [htoken]

theorem lexes_word {c : Char} {word : Text} (hletters : ∀ d ∈ c :: word, d.isAlpha = true)
    (hblank : Text.isBlank c = false) (hdigit : c.isDigit = false) (hpoint : c ≠ '.')
    (htoken : wordToken (c :: word) = .ok token) (hrest : EndsWord rest)
    (htokens : Lexes rest tokens) : Lexes (c :: word ++ rest) (token :: tokens) :=
  (scansAs_word hletters hblank hdigit hpoint htoken hrest).lexes htokens

/-- The symbol of an operator is the operator.  Letters may not go on behind the one that
is a word. -/
theorem lexes_operator (op : Operator) (hrest : op = .mod → EndsWord rest)
    (htokens : Lexes rest tokens) : Lexes (op.symbol ++ rest) (.operator op :: tokens) := by
  cases op with
  | mod =>
    have hletters : ∀ c ∈ ['m', 'o', 'd'], c.isAlpha = true :=
      List.all_iff_forall_prop.1 (by decide)
    exact lexes_word hletters (by decide) (by decide) (by decide) (by rfl) (hrest rfl) htokens
  | _ => exact lexes_symbol (by decide) (by decide) (by decide) (by decide) (by rfl) htokens

end MatrixCalculator.Scalar
