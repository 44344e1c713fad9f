import MatrixCalculator.Proofs.Scalar.EnteredLexemes

/-!
# Entered expressions

Where lexemes have nothing between them any more, only two things can be read in another
way: words that stood next to each other become one word, which the grammar does not have,
and a numeral goes on with what was the constant, a sign and digits behind it.  All other
neighbours stay apart, as no numeral stands behind a value.
-/

namespace MatrixCalculator.Scalar

open Expression Numeral Outcome

variable {text piece : Text} {token : Token} {tokens closing : List Token}
variable {limit : Nat} {x y : Float} {pending : List Pending} {progress : Progress}
variable {found rest : List Lexeme} {first : Lexeme} {d : Char} {tail : Text}

/-! ## Neighbours -/

/-- Whether two words stand next to each other, with blanks between them. -/
def WordsMeet (found : List Lexeme) : Prop :=
  ∃ left right, [left, right] <:+: found ∧
    ∀ c ∈ left.text ++ right.text, c.isAlpha = true

/-- Whether a numeral without an exponent is followed by the constant, a sign and digits. -/
def MakesExponent (found : List Lexeme) : Prop :=
  ∃ (s : TypedNumeral) (numeral constant sign digits : Lexeme) (c : Char),
    [numeral, constant, sign, digits] <:+: found ∧ numeral.text = s.text ∧ s.exponent = none ∧
      constant.text = ['e'] ∧ (sign.token = .operator .add ∨ sign.token = .operator .sub) ∧
      digits.text.head? = some c ∧ c.isDigit = true

/-- Words meet at the head of some lexemes or behind it. -/
theorem wordsMeet_cons_iff : WordsMeet (first :: rest) ↔
    (∃ next more, rest = next :: more ∧ ∀ c ∈ first.text ++ next.text, c.isAlpha = true) ∨
      WordsMeet rest := by
  constructor
  · rintro ⟨left, right, hwithin, hwords⟩
    rcases List.infix_cons_iff.1 hwithin with ⟨more, hmore⟩ | hinfix
    · obtain ⟨rfl, hrest⟩ := List.cons.inj hmore
      exact .inl ⟨right, more, hrest.symm, hwords⟩
    · exact .inr ⟨left, right, hinfix, hwords⟩
  · rintro (⟨next, more, rfl, hwords⟩ | ⟨left, right, hwithin, hwords⟩)
    · exact ⟨first, next, ⟨[], more, rfl⟩, hwords⟩
    · exact ⟨left, right, hwithin.trans (List.suffix_cons first rest).isInfix, hwords⟩

theorem not_wordsMeet_nil : ¬WordsMeet [] := by
  rintro ⟨left, right, hwithin, -⟩
  cases List.infix_nil.1 hwithin

theorem MakesExponent.cons {first : Lexeme} (hrest : MakesExponent rest) :
    MakesExponent (first :: rest) := by
  obtain ⟨s, numeral, constant, sign, digits, c, hwithin, hexponent⟩ := hrest
  exact ⟨s, numeral, constant, sign, digits, c,
    hwithin.trans (List.suffix_cons first rest).isInfix, hexponent⟩

/-- No numeral stands behind a value. -/
theorem not_numeral_behind (hlexemes : AreLexemes found)
    (hvalue : valueFrom? limit (.having y pending) (found.map Lexeme.token ++ closing) = some x)
    (htext : entered found = d :: tail) : ¬(d.isDigit = true ∨ d = '.') := by
  intro hd
  obtain ⟨first, rest, others, rfl, -, hfirst, hothers, -⟩ := exists_of_entered hlexemes htext
  obtain ⟨-, z, hz⟩ := hfirst.of_numeral hothers hd
  rw [List.map_cons, hz, List.cons_append] at hvalue
  cases (valueFrom?_number_eq_some_iff.1 hvalue).1

/-- A constant behind a value is multiplied with it. -/
theorem exists_having_constant {constant : Constant}
    (hvalue : valueFrom? limit (.having y pending) (.constant constant :: tokens) = some x) :
    ∃ more, valueFrom? limit (.having constant.value more) tokens = some x := by
  obtain ⟨next, hnext, hvalue⟩ := valueFrom?_cons_eq_some_iff.1 hvalue
  rw [readToken?_startsFactor rfl] at hnext
  cases hnext
  exact ⟨_, hvalue⟩

/-- A numeral is found again in front of the lexemes that follow it. -/
theorem endsTyped_entered {s : TypedNumeral} {numeral : Lexeme} (hnumeral : numeral.text = s.text)
    (hlexemes : AreLexemes rest) (hexponent : ¬MakesExponent (numeral :: rest))
    (hvalue : valueFrom? limit (.having y pending) (rest.map Lexeme.token ++ closing) = some x) :
    EndsTyped s (entered rest) := by
  refine ⟨fun c hhead => ?_, fun hnone => ⟨?_, fun _ hhead => ?_⟩⟩
  · obtain ⟨tail, htext⟩ := List.head?_eq_some_iff.1 hhead
    have hbehind := not_numeral_behind hlexemes hvalue htext
    exact Bool.eq_false_iff.2 fun hc => hbehind (.inl hc)
  · by_contra hlength
    obtain ⟨mark, signText, c, behind, hmark, hsign, hc, htext⟩ :=
      exponentLength_ne_zero_iff.1 hlength
    obtain ⟨constant, more, others, rfl, hmore, hconstant, hothers, htail⟩ :=
      exists_of_entered hlexemes htext
    have hletter : mark.isAlpha = true := by rcases hmark with rfl | rfl <;> decide
    obtain ⟨hpiece, -, htoken⟩ := hconstant.of_letter hothers hletter
    obtain ⟨rfl, rfl, hconstantToken⟩ := eq_constant_of_wordToken hmark htoken
    rw [List.map_cons, hconstantToken, List.cons_append] at hvalue
    obtain ⟨pending, hvalue⟩ := exists_having_constant hvalue
    -- Digits right behind the constant would be a numeral behind a value.
    have hsigned : ∀ d, (d = '-' ∨ d = '+') → entered more ≠ d :: c :: behind := by
      intro d hd hmoreText
      obtain ⟨sign, last, others, rfl, hlast, hsignLexeme, hothers, htail⟩ :=
        exists_of_entered hmore hmoreText
      obtain ⟨rfl, hsignToken⟩ := hsignLexeme.of_sign hothers hd
      obtain ⟨digits, final, others, rfl, -, hdigits, hothers, -⟩ :=
        exists_of_entered hlast htail.symm
      obtain ⟨hdigitsText, -⟩ := hdigits.of_numeral hothers (.inl hc)
      exact hexponent ⟨s, numeral, constant, sign, digits, c, ⟨[], final, rfl⟩, hnumeral, hnone,
        hpiece, hsignToken, by rw [hdigitsText]; rfl, hc⟩
    rcases hsign with rfl | rfl | rfl
    · exact not_numeral_behind hmore hvalue htail.symm (.inl hc)
    · exact hsigned '-' (.inl rfl) htail.symm
    · exact hsigned '+' (.inr rfl) htail.symm
  · obtain ⟨tail, htext⟩ := List.head?_eq_some_iff.1 hhead
    exact not_numeral_behind hlexemes hvalue htext (.inr rfl)

/-- A word is found again in front of lexemes that do not begin with a word. -/
theorem endsWord_entered (hlexemes : AreLexemes rest)
    (hnext : ∀ next more, rest = next :: more → ¬∀ c ∈ next.text, c.isAlpha = true) :
    EndsWord (entered rest) := by
  intro c hhead
  obtain ⟨tail, htext⟩ := List.head?_eq_some_iff.1 hhead
  obtain ⟨next, more, others, rfl, -, hfirst, hothers, -⟩ := exists_of_entered hlexemes htext
  refine Bool.eq_false_iff.2 fun hc => hnext next more rfl ?_
  obtain ⟨hpiece, hletters, -⟩ := hfirst.of_letter hothers hc
  rwa [hpiece]

/-- A lexeme is found again in front of those that follow it, unless it meets a word. -/
theorem scansAs_entered (hlexemes : AreLexemes (first :: rest))
    (hexponent : ¬MakesExponent (first :: rest))
    (hapart : ¬∃ next more, rest = next :: more ∧
      ∀ c ∈ first.text ++ next.text, c.isAlpha = true)
    (hvalue : valueFrom? limit progress ((first :: rest).map Lexeme.token ++ closing) = some x) :
    ScansAs (Display.enter .canonical first.text) first.token (entered rest) := by
  obtain ⟨hfirst, hrest⟩ := List.forall_mem_cons.1 hlexemes
  obtain ⟨token, offset, piece⟩ := first
  dsimp only at hfirst hapart ⊢
  cases hfirst with
  | numeral s =>
    obtain ⟨-, hbehind⟩ := valueFrom?_number_eq_some_iff.1 hvalue
    rw [enter_typed]
    exact scansAs_typed (endsTyped_entered rfl hrest hexponent hbehind)
  | word hletters htoken =>
    have hends : EndsWord (entered rest) := endsWord_entered hrest fun next more hmore hword =>
      hapart ⟨next, more, hmore, List.forall_mem_append.2 ⟨hletters, hword⟩⟩
    have hletter := hletters _ List.mem_cons_self
    rw [enter_word hletters]
    exact scansAs_word hletters (isBlank_of_isAlpha hletter) (isDigit_of_isAlpha hletter)
      (ne_point_of_isAlpha hletter) htoken hends
  | symbol hc =>
    have hentered := hc.enterChar
    rw [enter_symbol hc.isBlank]
    exact scansAs_symbol hentered.isBlank hentered.isDigit hentered.ne_point hentered.isAlpha
      hentered.symbolToken?

/-! ## Whole texts -/

/-- Lexemes with nothing between them are the same tokens where no words meet. -/
theorem lexes_entered (hlexemes : AreLexemes found) (hexponent : ¬MakesExponent found)
    (hmeet : ¬WordsMeet found)
    (hvalue : valueFrom? limit progress (found.map Lexeme.token ++ closing) = some x) :
    Lexes (entered found) (found.map Lexeme.token) := by
  induction found generalizing progress with
  | nil => exact lexes_nil
  | cons first rest ih =>
    obtain ⟨next, -, hrestValue⟩ := valueFrom?_cons_eq_some_iff.1 hvalue
    rw [wordsMeet_cons_iff, not_or] at hmeet
    exact (scansAs_entered hlexemes hexponent hmeet.1 hvalue).lexes
      (ih (List.forall_mem_cons.1 hlexemes).2 (fun h => hexponent h.cons) hmeet.2 hrestValue)

/-- Words with nothing between them are one word, which the grammar does not have. -/
theorem exists_error_of_words {left : Char} {others right : Text} {leftToken rightToken : Token}
    (hleft : ∀ c ∈ left :: others, c.isAlpha = true) (hright : ∀ c ∈ right, c.isAlpha = true)
    (hleftToken : wordToken (left :: others) = .ok leftToken)
    (hrightToken : wordToken right = .ok rightToken) (tail : Text) (offset : Nat) :
    ∃ cause, lexemesFrom offset (left :: others ++ (right ++ tail)) = .error cause := by
  obtain ⟨hletter, hothers⟩ := List.forall_mem_cons.1 hleft
  have hrun : left :: (others ++ (right ++ tail)).takeWhile Char.isAlpha =
      left :: others ++ right ++ tail.takeWhile Char.isAlpha := by
    rw [List.takeWhile_append_of_pos hothers, List.takeWhile_append_of_pos hright]
    simp
  have hword : left :: others ++ right ++ tail.takeWhile Char.isAlpha ∉ vocabulary :=
    not_mem_vocabulary (mem_vocabulary hleftToken) (mem_vocabulary hrightToken)
  obtain ⟨cause, hcause⟩ := exists_error_of_wordToken hword
  have hscan : scanToken offset left (others ++ (right ++ tail)) = .error cause := by
    have hnumeral : ¬(left.isDigit = true ∨ left = '.') := by
      rw [isDigit_of_isAlpha hletter]
      rintro (h | h)
      · cases h
      · exact ne_point_of_isAlpha hletter h
    rw [scanToken, if_neg hnumeral, if_pos hletter]
    dsimp only
    rw [hrun, hcause]
  refine ⟨cause, ?_⟩
  rw [List.cons_append, lexemesFrom.eq_def]
  dsimp only
  rw [if_neg (by rw [isBlank_of_isAlpha hletter]; exact Bool.false_ne_true), hscan]
  rfl

/-- What is wrong behind a lexeme is wrong with the whole. -/
theorem ScansAs.exists_error (hpiece : ScansAs piece token text)
    (hfault : ∀ offset, ∃ cause, lexemesFrom offset text = .error cause) (offset : Nat) :
    ∃ cause, lexemesFrom offset (piece ++ text) = .error cause := by
  obtain ⟨cause, hcause⟩ := hfault (offset + Text.byteLength piece)
  exact ⟨cause, by rw [hpiece.lexemesFrom_eq, hcause, map_error]⟩

/-- Lexemes with nothing between them are refused where words meet. -/
theorem exists_error_of_wordsMeet (hlexemes : AreLexemes found)
    (hexponent : ¬MakesExponent found) (hmeet : WordsMeet found)
    (hvalue : valueFrom? limit progress (found.map Lexeme.token ++ closing) = some x)
    (offset : Nat) : ∃ cause, lexemesFrom offset (entered found) = .error cause := by
  induction found generalizing progress offset with
  | nil => exact absurd hmeet not_wordsMeet_nil
  | cons first rest ih =>
    obtain ⟨hfirst, hrest⟩ := List.forall_mem_cons.1 hlexemes
    by_cases hhead : ∃ next more, rest = next :: more ∧
        ∀ c ∈ first.text ++ next.text, c.isAlpha = true
    · obtain ⟨next, more, rfl, hwords⟩ := hhead
      obtain ⟨hleft, hright⟩ := List.forall_mem_append.1 hwords
      have hleftToken := hfirst.wordToken_eq hleft
      have hrightToken := (List.forall_mem_cons.1 hrest).1.wordToken_eq hright
      have hsplit : entered (first :: next :: more) =
          first.text ++ (next.text ++ entered more) := by
        conv_rhs => rw [← enter_word hleft, ← enter_word hright]
        rfl
      obtain ⟨c, others, hpiece⟩ := List.exists_cons_of_ne_nil hfirst.ne_nil
      rw [hsplit, hpiece]
      rw [hpiece] at hleft hleftToken
      exact exists_error_of_words hleft hright hleftToken hrightToken (entered more) offset
    · obtain ⟨progress, -, hrestValue⟩ := valueFrom?_cons_eq_some_iff.1 hvalue
      have hmeetRest := (wordsMeet_cons_iff.1 hmeet).resolve_left hhead
      exact (scansAs_entered hlexemes hexponent hhead hvalue).exists_error
        (ih hrest (fun h => hexponent h.cons) hmeetRest hrestValue) offset

/-- A text with a value keeps it once it has been entered exactly if no two words meet, where
no exponent arises. -/
theorem evaluate_enter (hfound : lexemes text = .ok found) (hvalue : evaluate limit text = .ok x)
    (hexponent : ¬MakesExponent found) :
    evaluate limit (Display.enter .canonical text) = .ok x ↔ ¬WordsMeet found := by
  obtain ⟨found', hfound', hvalue⟩ := bind_eq_ok_iff.1 hvalue
  obtain rfl : found = found' := Except.ok.inj (hfound.symm.trans hfound')
  obtain ⟨y, hy, hnumber⟩ := bind_eq_ok_iff.1 hvalue
  obtain ⟨hlexemes, htext⟩ := enter_eq_entered (scans_of_lexemesFrom hfound) hfound
  obtain ⟨closing, hread⟩ : ∃ closing,
      valueFrom? limit .start (found.map Lexeme.token ++ closing) = some y := by
    rcases valueOf_eq_ok_iff.1 hy with hclosed | hopen
    · exact ⟨[], by rwa [List.append_nil]⟩
    · exact ⟨[.rightParen], hopen⟩
  rw [htext]
  constructor
  · intro hentered hmeet
    obtain ⟨cause, hcause⟩ := exists_error_of_wordsMeet hlexemes hexponent hmeet hread 0
    rw [evaluate, lexemes, hcause] at hentered
    cases hentered
  · intro hmeet
    obtain ⟨others, hothers, htokens⟩ := lexes_entered hlexemes hexponent hmeet hread 0
    have hsame : valueOf limit others = .ok y := by
      rw [valueOf_eq_ok_iff, htokens]
      exact valueOf_eq_ok_iff.1 hy
    rw [evaluate, lexemes, hothers, ok_bind, hsame]
    exact hnumber

theorem evaluate_enter_remainder :
    solve 1 "5 mod 3 − 1".toList = .ok "1".toList ∧
      Display.enter .canonical "5 mod 3 − 1".toList = "5mod3-1".toList ∧
      solve 1 "5mod3-1".toList = .ok "1".toList := by
  have hsolved : solve 1 "5 mod 3 − 1".toList = .ok "1".toList := by decide +kernel
  have hentered : Display.enter .canonical "5 mod 3 − 1".toList = "5mod3-1".toList := by decide
  have htexts : (fun found => found.map Lexeme.text) <$> lexemes "5 mod 3 − 1".toList =
      .ok (["5", "mod", "3", "−", "1"].map String.toList) := by decide +kernel
  refine ⟨hsolved, hentered, ?_⟩
  rw [solve, map_eq_ok_iff] at hsolved ⊢
  obtain ⟨x, hx, hwrite⟩ := hsolved
  obtain ⟨found, hfound, hfoundTexts⟩ := map_eq_ok_iff.1 htexts
  have hexponent : ¬MakesExponent found := by
    rintro ⟨s, numeral, constant, sign, digits, c, hwithin, -, -, hconstant, -⟩
    have hmem : constant.text ∈ found.map Lexeme.text :=
      List.mem_map_of_mem (hwithin.subset (by simp))
    rw [hconstant, hfoundTexts] at hmem
    exact absurd hmem (by decide)
  have hmeet : ¬WordsMeet found := by
    rintro ⟨left, right, hwithin, hwords⟩
    obtain ⟨hleft, hright⟩ := List.forall_mem_append.1 hwords
    have hkept := (hwithin.sublist.map Lexeme.text).filter fun text => text.all Char.isAlpha
    rw [hfoundTexts, List.filter_eq_self.2] at hkept
    · have hlength : 2 ≤ 1 := hkept.length_le
      omega
    · simpa using ⟨hleft, hright⟩
  rw [← hentered]
  exact ⟨x, (evaluate_enter hfound hx hexponent).2 hmeet, hwrite⟩

/-- Blanks divide the constant, a sign and digits behind a numeral, and they divide words. -/
theorem solve_divided_lexemes :
    solve 64 "2e - 5".toList = .ok "0.4365636569180902".toList ∧
      Display.enter .canonical "2e - 5".toList = "2e-5".toList ∧
      solve 64 "2e-5".toList = .ok "2e-5".toList ∧
      solve 64 "7 mod det 4".toList = .ok "3".toList ∧
      Display.enter .canonical "7 mod det 4".toList = "7moddet4".toList ∧
      solve 64 "7moddet4".toList = .error (.unknownSymbol "moddet".toList) := by
  decide +kernel

end MatrixCalculator.Scalar
