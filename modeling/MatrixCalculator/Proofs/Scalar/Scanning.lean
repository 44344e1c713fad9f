import MatrixCalculator.Proofs.Scalar.Chains
import MatrixCalculator.Proofs.Scalar.FlatChain

/-!
# The steps of the scan

A text is cut into lexemes in four ways: a blank is passed over, and a numeral, a word or
a single character is taken where none of them goes on.  What the scan finds does not
depend on the place of a text, so the steps are those of the texts that are read as some
tokens.
-/

namespace MatrixCalculator.Scalar

open Numeral Outcome

variable {text rest : Text} {token : Token} {tokens : List Token} {limit : Nat} {x : Float}

/-- The steps by which a text is read as some tokens. -/
inductive Scans : Text → List Token → Prop
  | nil : Scans [] []
  | blank {c : Char} {rest : Text} {tokens : List Token} (hc : Text.isBlank c = true)
      (hrest : Scans rest tokens) : Scans (c :: rest) tokens
  | numeral {rest : Text} {tokens : List Token} (s : TypedNumeral) (hends : EndsTyped s rest)
      (hrest : Scans rest tokens) : Scans (s.text ++ rest) (.number s.value :: tokens)
  | word {c : Char} {word rest : Text} {token : Token} {tokens : List Token}
      (hletters : ∀ d ∈ c :: word, d.isAlpha = true) (htoken : wordToken (c :: word) = .ok token)
      (hends : EndsWord rest) (hrest : Scans rest tokens) :
      Scans (c :: word ++ rest) (token :: tokens)
  | symbol {c : Char} {rest : Text} {token : Token} {tokens : List Token}
      (hblank : Text.isBlank c = false) (hdigit : c.isDigit = false) (hpoint : c ≠ '.')
      (halpha : c.isAlpha = false) (htoken : symbolToken? c = some token)
      (hrest : Scans rest tokens) : Scans (c :: rest) (token :: tokens)

/-! ## Letters -/

theorem toNat_of_isAlpha {c : Char} (hc : c.isAlpha = true) :
    65 ≤ c.toNat ∧ c.toNat ≤ 90 ∨ 97 ≤ c.toNat ∧ c.toNat ≤ 122 := by
  simpa [Char.isAlpha, Char.isUpper, Char.isLower, UInt32.le_iff_toNat_le] using hc

theorem isBlank_of_isAlpha {c : Char} (hc : c.isAlpha = true) : Text.isBlank c = false := by
  have hrange := toNat_of_isAlpha hc
  simp only [Text.isBlank, Bool.or_eq_false_iff, Bool.and_eq_false_iff, beq_eq_false_iff_ne,
    decide_eq_false_iff_not]
  omega

theorem isDigit_of_isAlpha {c : Char} (hc : c.isAlpha = true) : c.isDigit = false := by
  have hrange := toNat_of_isAlpha hc
  have hdigit : ¬(48 ≤ c.toNat ∧ c.toNat ≤ 57) := by omega
  simpa [Char.isDigit, UInt32.le_iff_toNat_le] using hdigit

theorem ne_point_of_isAlpha {c : Char} (hc : c.isAlpha = true) : c ≠ '.' := by
  rintro rfl
  cases hc

/-! ## Steps and lexemes -/

/-- What is read by steps is read wherever it stands. -/
theorem Scans.lexes (hscans : Scans text tokens) : Lexes text tokens := by
  induction hscans with
  | nil => exact lexes_nil
  | blank hc _ ih =>
    intro offset
    obtain ⟨lexemes, hlexemes, htokens⟩ := ih (offset + _)
    refine ⟨lexemes, ?_, htokens⟩
    rw [lexemesFrom.eq_def]
    dsimp only
    rw [if_pos hc]
    exact hlexemes
  | numeral s hends _ ih => exact lexes_typed hends ih
  | word hletters htoken hends _ ih =>
    have hc := hletters _ (List.mem_cons_self ..)
    exact lexes_word hletters (isBlank_of_isAlpha hc) (isDigit_of_isAlpha hc)
      (ne_point_of_isAlpha hc) htoken hends ih
  | symbol hblank hdigit hpoint halpha htoken _ ih =>
    exact lexes_symbol hblank hdigit hpoint halpha htoken ih

theorem drop_of_cons_eq {c : Char} {word : Text} (htext : c :: text = word ++ rest)
    (hne : word ≠ []) : text.drop (word.length - 1) = rest := by
  obtain ⟨d, others, rfl⟩ := List.exists_cons_of_ne_nil hne
  obtain ⟨-, rfl⟩ := List.cons.inj htext
  exact List.drop_left

/-- The three ways in which a text is a token in front of another one. -/
inductive IsToken : (text : Text) → Token → (rest : Text) → Prop
  | numeral {rest : Text} (s : TypedNumeral) (hends : EndsTyped s rest) :
      IsToken s.text (.number s.value) rest
  | word {c : Char} {word rest : Text} {token : Token}
      (hletters : ∀ d ∈ c :: word, d.isAlpha = true) (htoken : wordToken (c :: word) = .ok token)
      (hends : EndsWord rest) : IsToken (c :: word) token rest
  | symbol {c : Char} {rest : Text} {token : Token} (hblank : Text.isBlank c = false)
      (hdigit : c.isDigit = false) (hpoint : c ≠ '.') (halpha : c.isAlpha = false)
      (htoken : symbolToken? c = some token) : IsToken [c] token rest

theorem IsToken.ne_nil {piece : Text} (htoken : IsToken piece token rest) : piece ≠ [] := by
  cases htoken with
  | numeral s => exact s.text_ne_nil
  | word | symbol => exact List.cons_ne_nil _ _

theorem exists_isToken {c : Char} {offset length : Nat} (hblank : Text.isBlank c = false)
    (hscan : scanToken offset c text = .ok (token, length)) :
    ∃ piece rest, c :: text = piece ++ rest ∧ piece.length = length ∧
      IsToken piece token rest := by
  rw [scanToken] at hscan
  split at hscan
  · obtain ⟨s, rest, htext, hends, rfl, rfl⟩ := exists_of_scanNumeral hscan
    exact ⟨s.text, rest, htext, rfl, .numeral s hends⟩
  · next hnumeral =>
    obtain ⟨hdigit, hpoint⟩ := not_or.1 hnumeral
    split at hscan
    · next halpha =>
      dsimp only at hscan
      split at hscan
      · next htoken =>
        cases hscan
        refine ⟨c :: text.takeWhile Char.isAlpha, text.dropWhile Char.isAlpha, ?_, rfl, ?_⟩
        · rw [List.cons_append, List.takeWhile_append_dropWhile]
        · exact .word (List.forall_mem_cons.2 ⟨halpha, fun d => List.mem_takeWhile_imp⟩) htoken
            (Text.head?_dropWhile text)
      · cases hscan
    · next halpha =>
      split at hscan
      · next hsymbol =>
        cases hscan
        exact ⟨[c], text, rfl, rfl, .symbol hblank (Bool.eq_false_of_not_eq_true hdigit) hpoint
          (Bool.eq_false_of_not_eq_true halpha) hsymbol⟩
      · cases hscan

/-- A token in front of what is read by steps is one step more. -/
theorem Scans.of_isToken {piece : Text} (htoken : IsToken piece token rest)
    (hrest : Scans rest tokens) : Scans (piece ++ rest) (token :: tokens) := by
  cases htoken with
  | numeral s hends => exact .numeral s hends hrest
  | word hletters htoken hends => exact .word hletters htoken hends hrest
  | symbol hblank hdigit hpoint halpha htoken =>
    exact .symbol hblank hdigit hpoint halpha htoken hrest

/-- Every text that is cut into lexemes is read by steps. -/
theorem scans_of_lexemesFrom {offset : Nat} {lexemes : List Lexeme}
    (hlexemes : lexemesFrom offset text = .ok lexemes) :
    Scans text (lexemes.map Lexeme.token) := by
  induction hsize : text.length using Nat.strong_induction_on generalizing text offset lexemes with
  | h size ih =>
    cases text with
    | nil =>
      rw [lexemesFrom_nil] at hlexemes
      cases hlexemes
      exact .nil
    | cons c text =>
      rw [lexemesFrom.eq_def] at hlexemes
      dsimp only at hlexemes
      split at hlexemes
      · next hblank => exact .blank hblank (ih text.length (by simp [← hsize]) hlexemes rfl)
      · next hblank =>
        obtain ⟨⟨token, length⟩, hscan, hlexemes⟩ := bind_eq_ok_iff.1 hlexemes
        obtain ⟨others, hothers, hlexemes⟩ := bind_eq_ok_iff.1 hlexemes
        cases hlexemes
        have hrest : Scans (text.drop (length - 1)) (others.map Lexeme.token) :=
          ih _ (by simp [← hsize]) hothers rfl
        obtain ⟨piece, rest, htext, rfl, htoken⟩ :=
          exists_isToken (Bool.eq_false_of_not_eq_true hblank) hscan
        rw [drop_of_cons_eq htext htoken.ne_nil] at hrest
        rw [htext]
        exact hrest.of_isToken htoken

/-! ## How a text goes on -/

/-- Whether neither a word nor a numeral in front of a text goes on with it.  The second
character counts: behind a mark a sign and a digit are an exponent. -/
structure EndsLexeme (rest : Text) : Prop where
  word : EndsWord rest
  numeral : EndsNumeral rest
  sign : ∀ c, rest.tail.head? = some c → c.isDigit = false

theorem head?_append_cases {c : Char} {tail : Text} (hc : (rest ++ tail).head? = some c) :
    rest.head? = some c ∨ tail.head? = some c := by
  cases rest with
  | nil => exact .inr hc
  | cons d rest => exact .inl hc

theorem EndsWord.append {tail : Text} (hrest : EndsWord rest) (htail : EndsWord tail) :
    EndsWord (rest ++ tail) :=
  fun c hc => (head?_append_cases hc).elim (hrest c) (htail c)

theorem exponentLength_append {tail : Text} (htail : EndsLexeme tail)
    (hrest : exponentLength rest = 0) : exponentLength (rest ++ tail) = 0 := by
  by_contra hlength
  obtain ⟨mark, sign, c, others, hmark, hsign, hc, htext⟩ := exponentLength_ne_zero_iff.1 hlength
  have hdigit : tail.head? ≠ some c ∧ tail.tail.head? ≠ some c := by
    constructor
    · intro hhead
      rw [(htail.numeral c hhead).1] at hc
      cases hc
    · intro hhead
      rw [htail.sign c hhead] at hc
      cases hc
  have hshort : sign.length ≤ 1 := by rcases hsign with rfl | rfl | rfl <;> decide
  rcases List.append_eq_append_iff.1 htext with ⟨behind, hlead, rfl⟩ | ⟨behind, rfl, hbehind⟩
  · cases rest with
    | nil =>
      obtain rfl : mark :: sign = behind := hlead
      obtain ⟨-, -, hlower, hupper⟩ := htail.numeral mark rfl
      exact hmark.elim hlower hupper
    | cons d rest =>
      rw [List.cons_append] at hlead
      obtain ⟨rfl, rfl⟩ := List.cons.inj hlead
      match behind with
      | [] => exact hdigit.1 rfl
      | [_] => exact hdigit.2 rfl
      | _ :: _ :: _ =>
        simp only [List.length_append, List.length_cons] at hshort
        omega
  · cases behind with
    | nil =>
      obtain rfl : c :: others = tail := hbehind
      exact hdigit.1 rfl
    | cons d behind =>
      obtain ⟨rfl, -⟩ := List.cons.inj hbehind
      exact exponentLength_ne_zero_iff.2 ⟨mark, sign, c, behind, hmark, hsign, hc, rfl⟩ hrest

theorem EndsTyped.append {s : TypedNumeral} {tail : Text} (htail : EndsLexeme tail)
    (hrest : EndsTyped s rest) : EndsTyped s (rest ++ tail) := by
  refine ⟨fun c hc => ?_, fun hexponent => ?_⟩
  · exact (head?_append_cases hc).elim (hrest.1 c) fun hc => (htail.numeral c hc).1
  · obtain ⟨hlength, hpoint⟩ := hrest.2 hexponent
    refine ⟨exponentLength_append htail hlength, fun hfraction hc => ?_⟩
    rcases head?_append_cases hc with hc | hc
    · exact hpoint hfraction hc
    · exact (htail.numeral '.' hc).2.1 rfl

theorem scans_symbol {c : Char} (hblank : Text.isBlank c = false) (hdigit : c.isDigit = false)
    (hpoint : c ≠ '.') (halpha : c.isAlpha = false) (htoken : symbolToken? c = some token)
    (hscans : Scans (c :: rest) tokens) :
    ∃ others, tokens = token :: others ∧ Scans rest others := by
  generalize htext : c :: rest = text at hscans
  cases hscans with
  | nil => cases htext
  | blank hc hrest =>
    obtain ⟨rfl, rfl⟩ := List.cons.inj htext
    rw [hblank] at hc
    cases hc
  | numeral s hends hrest =>
    obtain ⟨d, others, hs, hd⟩ := s.exists_cons
    rw [hs] at htext
    obtain ⟨rfl, -⟩ := List.cons.inj htext
    rcases hd with hd | hd
    · rw [hdigit] at hd
      cases hd
    · exact absurd hd hpoint
  | word hletters =>
    obtain ⟨rfl, -⟩ := List.cons.inj htext
    rw [hletters _ (List.mem_cons_self ..)] at halpha
    cases halpha
  | symbol _ _ _ _ hfound hrest =>
    obtain ⟨rfl, rfl⟩ := List.cons.inj htext
    rw [htoken] at hfound
    exact ⟨_, congrArg (· :: _) (Option.some.inj hfound).symm, hrest⟩

theorem scans_factorial (hscans : Scans ('!' :: rest) tokens) :
    ∃ others, tokens = .factorial :: others ∧ Scans rest others :=
  scans_symbol (by decide) (by decide) (by decide) (by decide) rfl hscans

theorem scans_numeral {c : Char} (hc : c.isDigit = true ∨ c = '.')
    (hscans : Scans (c :: rest) tokens) : ∃ y others, tokens = .number y :: others := by
  generalize htext : c :: rest = text at hscans
  cases hscans with
  | nil => cases htext
  | blank hblank hrest =>
    obtain ⟨rfl, rfl⟩ := List.cons.inj htext
    rcases hc with hc | rfl
    · rw [isBlank_of_isDigit hc] at hblank
      cases hblank
    · cases hblank
  | numeral s hends hrest => exact ⟨_, _, rfl⟩
  | word hletters =>
    obtain ⟨rfl, -⟩ := List.cons.inj htext
    have hletter := hletters _ (List.mem_cons_self ..)
    rcases hc with hc | rfl
    · rw [isDigit_of_isAlpha hletter] at hc
      cases hc
    · exact absurd hletter (by decide)
  | symbol hblank hdigit hpoint halpha htoken hrest =>
    obtain ⟨rfl, rfl⟩ := List.cons.inj htext
    rcases hc with hc | rfl
    · rw [hdigit] at hc
      cases hc
    · exact absurd rfl hpoint

/-! ## Which tokens are numbers -/

theorem wordToken_ne_number (word : Text) : wordToken word ≠ .ok (.number x) := by
  rw [wordToken]
  split
  · exact nofun
  · repeat' split
    all_goals exact nofun

theorem symbolToken?_ne_number (c : Char) : symbolToken? c ≠ some (.number x) := by
  rw [symbolToken?]
  repeat refine iteInduction (motive := (· ≠ some (Token.number x))) (fun _ => nofun) fun _ => ?_
  intro hname
  obtain ⟨f, -, hf⟩ := Option.map_eq_some_iff.1 hname
  cases hf

/-- Values are numbers. -/
theorem not_isNaN_of_evaluate (hvalue : evaluate limit text = .ok x) : x.isNaN = false := by
  obtain ⟨lexemes, -, hvalue⟩ := bind_eq_ok_iff.1 hvalue
  obtain ⟨value, -, hvalue⟩ := bind_eq_ok_iff.1 hvalue
  split at hvalue
  · cases hvalue
  · next hnumber =>
    cases hvalue
    exact Bool.eq_false_of_not_eq_true hnumber

/-! ## Numbers of fields -/

theorem not_isNaN_typed (s : TypedNumeral) : s.value.isNaN = false := by
  rw [TypedNumeral.value, Decimal.toDouble_eq_nearest, not_isNaN_nearest]

/-- A numeral is an expression of its value. -/
theorem evaluate_typed (s : TypedNumeral) (limit : Nat) :
    evaluate limit s.text = .ok s.value := by
  have htokens : Lexes s.text [.number s.value] := by
    simpa using lexes_typed (endsTyped_nil (s := s)) lexes_nil
  have hderives := (derivesBase_number 0 s.value).operand.factor.product
  rw [evaluate_of_derives htokens hderives (Nat.zero_le limit), not_isNaN_typed]
  rfl

/-- The words for infinity and for what is not a number, in small letters. -/
def fieldWords : List Text := ["inf".toList, "infinity".toList, "nan".toList]

theorem isAlpha_of_toLower {c : Char} (hc : c.toLower.isAlpha = true) : c.isAlpha = true := by
  rw [Char.toLower] at hc
  split at hc
  · next hupper =>
    rw [Char.isAlpha, Char.isUpper, decide_eq_true hupper]
    rfl
  · exact hc

/-- Of the words for numbers in fields only one is a word of scalar expressions. -/
theorem eq_infinityWord_of_wordToken {word : Text} (hword : word.map Char.toLower ∈ fieldWords)
    (htoken : wordToken word = .ok token) :
    word = infinityWord ∧ token = .constant .infinity := by
  have hnames : ∀ entry ∈ NamedFunction.spellings, entry.1.map Char.toLower ∉ fieldWords := by
    decide
  rw [wordToken] at htoken
  split at htoken
  · next f hname =>
    obtain ⟨entry, hfound, -⟩ := Option.map_eq_some_iff.1 hname
    have hentry := List.find?_some hfound
    rw [decide_eq_true_eq] at hentry
    exact absurd (hentry ▸ hword) (hnames entry (List.mem_of_find?_eq_some hfound))
  · split at htoken
    · next heq => exact absurd (heq ▸ hword) (by decide)
    split at htoken
    · next heq => exact absurd (heq ▸ hword) (by decide)
    split at htoken
    · next heq => exact ⟨heq, (Except.ok.inj htoken).symm⟩
    · cases htoken

theorem isAlpha_of_mem_fieldWords (hword : text.map Char.toLower ∈ fieldWords) :
    ∀ c ∈ text, c.isAlpha = true := by
  have hletters : ∀ word ∈ fieldWords, word.all Char.isAlpha = true := by decide
  have hlower := List.all_eq_true.1 (hletters _ hword)
  exact fun c hc => isAlpha_of_toLower (hlower _ (List.mem_map_of_mem hc))

/-- A word for a number of fields that is cut into lexemes is the one for infinity. -/
theorem eq_infinityWord_of_lexemesFrom {offset : Nat} {lexemes : List Lexeme}
    (hword : text.map Char.toLower ∈ fieldWords)
    (hlexemes : lexemesFrom offset text = .ok lexemes) : text = infinityWord := by
  have hletters := isAlpha_of_mem_fieldWords hword
  cases text with
  | nil => exact absurd hword (by decide)
  | cons c others =>
    have hc := hletters c (List.mem_cons_self ..)
    have hwhole : others.takeWhile Char.isAlpha = others :=
      List.takeWhile_eq_self_iff.2 fun d hd => hletters d (List.mem_cons_of_mem c hd)
    rw [lexemesFrom.eq_def] at hlexemes
    dsimp only at hlexemes
    rw [if_neg (by simp [isBlank_of_isAlpha hc]), bind_eq_ok_iff] at hlexemes
    obtain ⟨⟨token, length⟩, hscan, -⟩ := hlexemes
    rw [scanToken, if_neg (by simp [isDigit_of_isAlpha hc, ne_point_of_isAlpha hc]),
      if_pos hc, hwhole] at hscan
    dsimp only at hscan
    split at hscan
    · next found htoken => exact (eq_infinityWord_of_wordToken hword htoken).1
    · cases hscan

/-- What a text without a sign is read as in a field is what it derives, if it is cut into
lexemes at all. -/
theorem derives_of_readUnsigned? {y : Float} {offset : Nat} {lexemes : List Lexeme}
    (hread : readUnsigned? text = some y) (hlexemes : lexemesFrom offset text = .ok lexemes) :
    ∃ tokens, Lexes text tokens ∧ Derives 0 .unary tokens y := by
  by_cases hword : text.map Char.toLower ∈ fieldWords
  · obtain rfl := eq_infinityWord_of_lexemesFrom hword hlexemes
    obtain rfl : infinity = y := Option.some.inj hread
    exact ⟨_, lexes_infinity, derives_infinity⟩
  · simp only [fieldWords, List.mem_cons, List.not_mem_nil, or_false, not_or] at hword
    obtain ⟨hinf, hinfinity, hnan⟩ := hword
    simp only [readUnsigned?, hinf, hinfinity, hnan, or_self, if_false,
      Option.map_eq_some_iff] at hread
    obtain ⟨d, hd, rfl⟩ := hread
    obtain ⟨s, rfl, rfl⟩ := readDecimal?_eq_some_iff.1 hd
    have htokens : Lexes s.text [.number s.value] := by
      simpa using lexes_typed (endsTyped_nil (s := s)) lexes_nil
    exact ⟨_, htokens, (derivesBase_number 0 s.value).operand⟩

/-- Behind a sign a text is cut into lexemes as well. -/
theorem exists_lexemesFrom_behind {c : Char} {offset : Nat} {lexemes : List Lexeme}
    (hc : c = '-' ∨ c = '+') (hlexemes : lexemesFrom offset (c :: text) = .ok lexemes) :
    ∃ behind others, lexemesFrom behind text = .ok others := by
  have hsign : ∃ op, scanToken offset c text = .ok (.operator op, 1) := by
    rcases hc with rfl | rfl
    · exact ⟨.sub, rfl⟩
    · exact ⟨.add, rfl⟩
  have hblank : Text.isBlank c = false := by rcases hc with rfl | rfl <;> decide
  obtain ⟨op, hscan⟩ := hsign
  rw [lexemesFrom_cons hblank hscan, bind_eq_ok_iff] at hlexemes
  obtain ⟨others, hothers, -⟩ := hlexemes
  exact ⟨_, others, hothers⟩

theorem eq_of_derives {y : Float} (hvalue : evaluate limit text = .ok x)
    (htokens : Lexes text tokens) (hderives : Derives 0 .unary tokens y) : x = y := by
  rw [evaluate_of_derives htokens hderives.factor.product (Nat.zero_le limit)] at hvalue
  split at hvalue
  · cases hvalue
  · exact (Except.ok.inj hvalue).symm

/-- Where a text has a value and can be read as the number of a field, the two are the
same. -/
theorem eq_of_read? {y : Float} (hvalue : evaluate limit text = .ok x)
    (hread : read? text = some y) : x = y := by
  obtain ⟨lexemes, hlexemes, -⟩ := bind_eq_ok_iff.1 hvalue
  rw [read?.eq_def] at hread
  split at hread
  · next body =>
    obtain ⟨z, hz, rfl⟩ := Option.map_eq_some_iff.1 hread
    obtain ⟨behind, others, hothers⟩ := exists_lexemesFrom_behind (.inl rfl) hlexemes
    obtain ⟨tokens, htokens, hderives⟩ := derives_of_readUnsigned? hz hothers
    have hminus : Lexes ('-' :: body) (.operator .sub :: tokens) :=
      lexes_symbol (by decide) (by decide) (by decide) (by decide) (by rfl) htokens
    exact eq_of_derives hvalue hminus hderives.minus
  · next body =>
    obtain ⟨behind, others, hothers⟩ := exists_lexemesFrom_behind (.inr rfl) hlexemes
    obtain ⟨tokens, htokens, hderives⟩ := derives_of_readUnsigned? hread hothers
    have hplus : Lexes ('+' :: body) (.operator .add :: tokens) :=
      lexes_symbol (by decide) (by decide) (by decide) (by decide) (by rfl) htokens
    exact eq_of_derives hvalue hplus hderives.plus
  · obtain ⟨tokens, htokens, hderives⟩ := derives_of_readUnsigned? hread hlexemes
    exact eq_of_derives hvalue htokens hderives

end MatrixCalculator.Scalar
