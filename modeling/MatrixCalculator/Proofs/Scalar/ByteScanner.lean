import MatrixCalculator.Proofs.Scalar.Pieces

/-!
# The scan by byte positions

The scan once more, over the whole text and a position in it.  A position moves by the bytes
of a character or, where the character is known to be one of a single byte, by one; what is
scanned is cut out of the text by two positions.  The scan would fail at a position inside a
character, and with more rounds than the text has characters.  It never does either: it finds
the lexemes of the text and its end.
-/

namespace MatrixCalculator.Scalar

open Numeral Outcome Text

/-- A token or the end of the text, with its position. -/
inductive Item where
  | token (token : Token) (offset : Nat)
  | ending (offset : Nat)

def Lexeme.item (lexeme : Lexeme) : Item := .token lexeme.token lexeme.offset

namespace ByteScanner

variable (text : Text)

/-- The position behind a run of characters, each of which moves it by some bytes. -/
def skip? (p : Char → Bool) (width : Char → Nat) : (rounds position : Nat) → Option Nat
  | 0, _ => none
  | rounds + 1, position => do
    match (← text.restAt? position).head? with
    | some c => if p c then skip? p width rounds (position + width c) else some position
    | none => some position

/-- One round for each character and one to see the end. -/
def rounds : Nat := text.length + 1

def digitsEnd? (position : Nat) : Option Nat :=
  skip? text Char.isDigit (fun _ => 1) (rounds text) position

/-- How many bytes the mark of an exponent and its sign have. -/
def markWidth (behind : Text) : Nat :=
  if behind[1]? = some '-' ∨ behind[1]? = some '+' then 2 else 1

/-- The position behind an exponent, which has a digit behind its mark and its sign. -/
def exponentEnd? (position : Nat) : Option Nat := do
  let behind ← text.restAt? position
  if (behind.head? = some 'e' ∨ behind.head? = some 'E') ∧
      behind[markWidth behind]?.any Char.isDigit then
    digitsEnd? text (position + markWidth behind)
  else some position

/-- The positions behind the digits and the point of a numeral, and how many digits there
are. -/
def mantissaEnd? (offset : Nat) : Option (Nat × Nat) := do
  let whole ← digitsEnd? text offset
  if (← text.restAt? whole).head? = some '.' then
    let fraction ← digitsEnd? text (whole + 1)
    return (fraction, whole - offset + (fraction - (whole + 1)))
  else return (whole, whole - offset)

def number? (offset : Nat) : ExceptT Fault Option (Token × Nat) := do
  let (mantissa, digits) ← mantissaEnd? text offset
  if digits = 0 then throw (.unexpectedToken ['.'] offset)
  else
    let stop ← exponentEnd? text mantissa
    let piece ← text.slice? offset stop
    match readDecimal? piece with
    | some numeral => return (.number numeral.toDouble, stop)
    | none => throw (.unexpectedToken piece offset)

def word? (offset : Nat) : ExceptT Fault Option (Token × Nat) := do
  let stop ← skip? text Char.isAlpha Char.utf8Size (rounds text) offset
  let word ← text.slice? offset stop
  match wordToken word with
  | .ok token => return (token, stop)
  | .error cause => throw cause

/-- The token of a single character; a function is looked up in the text. -/
def character? (c : Char) (offset : Nat) : Option (Option Token) :=
  if NamedFunction.isSymbol c then do
    let rest ← text.restAt? offset
    return (NamedFunction.atStart? rest).map fun entry => .function entry.2
  else some (symbolToken? c)

def symbol? (c : Char) (offset : Nat) : ExceptT Fault Option (Token × Nat) := do
  match ← character? text c offset with
  | some token => return (token, offset + c.utf8Size)
  | none => throw (.unexpectedToken [c] offset)

def token? (c : Char) (offset : Nat) : ExceptT Fault Option (Token × Nat) :=
  if c.isDigit ∨ c = '.' then number? text offset
  else if c.isAlpha then word? text offset
  else symbol? text c offset

/-- The next token or the end of the text, and the position behind it. -/
def next? (position : Nat) : ExceptT Fault Option (Item × Nat) := do
  let offset ← skip? text Text.isBlank Char.utf8Size (rounds text) position
  match (← text.restAt? offset).head? with
  | none => return (.ending offset, offset)
  | some c =>
    let (token, stop) ← token? text c offset
    return (.token token offset, stop)

def itemsFrom? : (rounds position : Nat) → ExceptT Fault Option (List Item)
  | 0, _ => liftM (none : Option (List Item))
  | rounds + 1, position => do
    let (item, stop) ← next? text position
    match item with
    | .ending _ => return [item]
    | .token .. => return item :: (← itemsFrom? rounds stop)

def items? : ExceptT Fault Option (List Item) := itemsFrom? text (rounds text) 0

/-! ## Runs of characters -/

section Positions

variable {text} {before rest : Text}

theorem liftM_some_bind {α β : Type} (a : α) (f : α → ExceptT Fault Option β) :
    (liftM (some a) : ExceptT Fault Option α) >>= f = f a :=
  liftM_pure_bind a f

theorem restAt?_of_eq (htext : text = before ++ rest) :
    text.restAt? (byteLength before) = some rest := by
  rw [htext, restAt?_eq]

/-- A run is passed over from any place in front of it, if its characters move the position by
all their bytes. -/
theorem skip?_eq {p : Char → Bool} {width : Char → Nat} {rounds : Nat}
    (hwidth : ∀ c, p c = true → width c = c.utf8Size) (htext : text = before ++ rest)
    (hrounds : rest.length < rounds) :
    skip? text p width rounds (byteLength before) =
      some (byteLength (before ++ rest.takeWhile p)) := by
  induction rest generalizing before rounds with
  | nil =>
    obtain ⟨rounds, rfl⟩ := Nat.exists_eq_succ_of_ne_zero (Nat.ne_zero_of_lt hrounds)
    rw [skip?, restAt?_of_eq htext]
    simp
  | cons c rest ih =>
    obtain ⟨rounds, rfl⟩ := Nat.exists_eq_succ_of_ne_zero (Nat.ne_zero_of_lt hrounds)
    rw [skip?, restAt?_of_eq htext, Option.bind_eq_bind, Option.bind_some, List.head?_cons]
    dsimp only
    split
    · next hc =>
      have hnext : byteLength before + width c = byteLength (before ++ [c]) := by
        rw [hwidth c hc, byteLength_append]
        rfl
      rw [hnext, ih (by simpa using htext) (Nat.lt_of_succ_lt_succ hrounds),
        List.takeWhile_cons_of_pos hc, List.append_assoc, List.singleton_append]
    · next hc => rw [List.takeWhile_cons_of_neg hc, List.append_nil]

theorem length_lt_rounds (htext : text = before ++ rest) : rest.length < rounds text := by
  rw [rounds, htext, List.length_append]
  omega

theorem utf8Size_of_isDigit {c : Char} (hc : c.isDigit = true) : c.utf8Size = 1 :=
  of_isDigit (fun c => c.utf8Size = 1) (List.all_iff_forall_prop.1 (by decide)) hc

theorem digitsEnd?_eq (htext : text = before ++ rest) :
    digitsEnd? text (byteLength before) =
      some (byteLength (before ++ rest.takeWhile Char.isDigit)) :=
  skip?_eq (fun _ hc => (utf8Size_of_isDigit hc).symm) htext (length_lt_rounds htext)

/-! ## Numerals -/

/-- The bytes that digits move a position by are as many as the digits. -/
theorem byteLength_digits (before text : Text) :
    byteLength (before ++ text.takeWhile Char.isDigit) - byteLength before =
      (text.takeWhile Char.isDigit).length := by
  have hdigits : byteLength (text.takeWhile Char.isDigit) =
      (text.takeWhile Char.isDigit).length :=
    byteLength_of_forall fun c hc => utf8Size_of_isDigit (forall_isDigit_takeWhile text c hc)
  rw [byteLength_append, Nat.add_sub_cancel_left, hdigits]

theorem mantissaLength_of_point {tail : Text} (htail : rest.dropWhile Char.isDigit = '.' :: tail) :
    mantissaLength rest =
      ((rest.takeWhile Char.isDigit ++ '.' :: tail.takeWhile Char.isDigit).length,
        (rest.takeWhile Char.isDigit).length + (tail.takeWhile Char.isDigit).length) := by
  simp only [mantissaLength, drop_length_takeWhile, htail, List.length_append, List.length_cons]
  rw [Nat.add_assoc, Nat.add_comm 1]

theorem mantissaLength_of_ne_point (hpoint : (rest.dropWhile Char.isDigit).head? ≠ some '.') :
    mantissaLength rest =
      ((rest.takeWhile Char.isDigit).length, (rest.takeWhile Char.isDigit).length) := by
  simp only [mantissaLength, drop_length_takeWhile]
  split
  · next htail =>
    rw [htail] at hpoint
    exact absurd rfl hpoint
  · rfl

/-- The point moves the position by one as well. -/
theorem mantissaEnd?_eq (htext : text = before ++ rest) :
    mantissaEnd? text (byteLength before) =
      some (byteLength (before ++ rest.take (mantissaLength rest).1), (mantissaLength rest).2) := by
  have hsplit := List.takeWhile_append_dropWhile (p := Char.isDigit) (l := rest)
  have hbehind : text = (before ++ rest.takeWhile Char.isDigit) ++ rest.dropWhile Char.isDigit := by
    rw [List.append_assoc, hsplit, htext]
  rw [mantissaEnd?, digitsEnd?_eq htext, Option.bind_eq_bind, Option.bind_some,
    restAt?_of_eq hbehind, Option.bind_eq_bind, Option.bind_some, byteLength_digits]
  split
  · next hpoint =>
    obtain ⟨tail, htail⟩ := List.head?_eq_some_iff.1 hpoint
    have hfraction : text = (before ++ rest.takeWhile Char.isDigit ++ ['.']) ++ tail := by
      rw [List.append_assoc _ ['.'], List.singleton_append, ← htail, ← hbehind]
    have hnext : byteLength (before ++ rest.takeWhile Char.isDigit) + 1 =
        byteLength (before ++ rest.takeWhile Char.isDigit ++ ['.']) :=
      (byteLength_append _ ['.']).symm
    have hprefix : rest.takeWhile Char.isDigit ++ '.' :: tail.takeWhile Char.isDigit <+: rest := by
      refine ⟨tail.dropWhile Char.isDigit, ?_⟩
      rw [List.append_assoc, List.cons_append, List.takeWhile_append_dropWhile, ← htail, hsplit]
    rw [hnext, digitsEnd?_eq hfraction, Option.bind_some, byteLength_digits,
      mantissaLength_of_point htail, ← List.prefix_iff_eq_take.1 hprefix, List.append_assoc,
      List.append_assoc, List.singleton_append]
    rfl
  · next hpoint =>
    rw [mantissaLength_of_ne_point hpoint,
      ← List.prefix_iff_eq_take.1 (List.takeWhile_prefix _)]
    rfl

/-- A mark has the sign behind it, if there is one. -/
theorem exists_sign (mark : Char) (tail : Text) :
    ∃ sign digits, tail = sign ++ digits ∧ (sign = [] ∨ sign = ['-'] ∨ sign = ['+']) ∧
      markWidth (mark :: tail) = (mark :: sign).length := by
  by_cases hsign : tail.head? = some '-' ∨ tail.head? = some '+'
  · obtain ⟨c, digits, rfl, hc⟩ : ∃ c digits, tail = c :: digits ∧ (c = '-' ∨ c = '+') := by
      cases tail with
      | nil => simp at hsign
      | cons c digits => exact ⟨c, digits, rfl, by simpa using hsign⟩
    refine ⟨[c], digits, rfl, .inr (by simpa using hc), ?_⟩
    exact if_pos (by simpa using hc)
  · refine ⟨[], tail, rfl, .inl rfl, ?_⟩
    exact if_neg (by simpa [List.head?_eq_getElem?] using hsign)

/-- A mark without a digit behind it and its sign belongs to no exponent. -/
theorem exponentEnd?_of_eq_zero (hlength : exponentLength rest = 0)
    (htext : text = before ++ rest) :
    exponentEnd? text (byteLength before) = some (byteLength before) := by
  rw [exponentEnd?, restAt?_of_eq htext, Option.bind_eq_bind, Option.bind_some]
  refine if_neg ?_
  rintro ⟨hmark, hdigit⟩
  cases rest with
  | nil => simp at hmark
  | cons mark tail =>
    obtain ⟨sign, digits, rfl, hsign, hwidth⟩ := exists_sign mark tail
    rw [hwidth, ← List.cons_append, List.getElem?_append_right le_rfl, Nat.sub_self,
      Option.any_eq_true] at hdigit
    obtain ⟨c, hhead, hc⟩ := hdigit
    rw [← List.head?_eq_getElem?] at hhead
    obtain ⟨others, rfl⟩ := List.head?_eq_some_iff.1 hhead
    have hmark : mark = 'e' ∨ mark = 'E' := by simpa using hmark
    exact exponentLength_ne_zero_iff.2 ⟨mark, sign, c, others, hmark, hsign, hc, rfl⟩ hlength

theorem markWidth_typed (e : TypedExponent) (rest : Text) :
    markWidth (e.text ++ rest) = (e.mark :: e.sign).length := by
  obtain ⟨c, others, hdigits, hc⟩ := e.digits.exists_cons
  have hminus := ne_of_isDigit hc (show '-'.isDigit = false by decide)
  have hplus := ne_of_isDigit hc (show '+'.isDigit = false by decide)
  rw [TypedExponent.text, hdigits, markWidth]
  rcases e.isSign with hsign | hsign | hsign
  · rw [hsign]
    exact if_neg (by simp [hminus, hplus])
  · rw [hsign]
    exact if_pos (by simp)
  · rw [hsign]
    exact if_pos (by simp)

theorem byteLength_mark (e : TypedExponent) :
    byteLength (e.mark :: e.sign) = (e.mark :: e.sign).length := by
  refine byteLength_of_forall (List.forall_mem_cons.2 ⟨?_, ?_⟩)
  · rcases e.isMark with h | h <;> rw [h] <;> decide
  · rcases e.isSign with h | h | h <;> rw [h] <;> exact List.all_iff_forall_prop.1 (by decide)

theorem exponentEnd?_typed {e : TypedExponent} (hrest : EndsDigits rest)
    (htext : text = before ++ (e.text ++ rest)) :
    exponentEnd? text (byteLength before) = some (byteLength (before ++ e.text)) := by
  obtain ⟨c, others, hdigits, hc⟩ := e.digits.exists_cons
  have hsplit : e.text ++ rest = (e.mark :: e.sign) ++ (e.digits.text ++ rest) := by
    simp [TypedExponent.text]
  have hmark : (e.text ++ rest).head? = some 'e' ∨ (e.text ++ rest).head? = some 'E' := by
    simpa [TypedExponent.text] using e.isMark
  have hdigit : (e.text ++ rest)[(e.mark :: e.sign).length]?.any Char.isDigit := by
    rw [hsplit, List.getElem?_append_right le_rfl, Nat.sub_self, hdigits]
    exact hc
  have hposition : byteLength before + (e.mark :: e.sign).length =
      byteLength (before ++ e.mark :: e.sign) := by
    rw [byteLength_append, byteLength_mark]
  have hbehind : text = (before ++ e.mark :: e.sign) ++ (e.digits.text ++ rest) := by
    rw [htext, hsplit, List.append_assoc]
  rw [exponentEnd?, restAt?_of_eq htext, Option.bind_eq_bind, Option.bind_some,
    markWidth_typed, if_pos ⟨hmark, hdigit⟩, hposition, digitsEnd?_eq hbehind,
    takeWhile_run e.digits.isDigit hrest, TypedExponent.text, List.append_assoc, List.cons_append]

theorem exponentEnd?_eq (htext : text = before ++ rest) :
    exponentEnd? text (byteLength before) =
      some (byteLength (before ++ rest.take (exponentLength rest))) := by
  by_cases hlength : exponentLength rest = 0
  · rw [exponentEnd?_of_eq_zero hlength htext, hlength, List.take_zero, List.append_nil]
  · obtain ⟨e, behind, rfl, hbehind⟩ := exists_typedExponent hlength
    rw [exponentEnd?_typed hbehind htext, exponentLength_typed e hbehind, List.take_left]

/-! ## Tokens -/

def placed (before rest : Text) (scanned : Token × Nat) : Token × Nat :=
  (scanned.1, byteLength (before ++ rest.take scanned.2))

theorem slice?_of_eq (htext : text = before ++ rest) (length : Nat) :
    text.slice? (byteLength before) (byteLength (before ++ rest.take length)) =
      some (rest.take length) := by
  have hslice := slice?_eq before (rest.take length) (rest.drop length)
  rwa [List.take_append_drop, ← htext] at hslice

theorem number?_eq (htext : text = before ++ rest) :
    number? text (byteLength before) =
      known (placed before rest <$> scanNumeral (byteLength before) rest) := by
  have hbehind : text = (before ++ rest.take (mantissaLength rest).1) ++
      rest.drop (mantissaLength rest).1 := by
    rw [List.append_assoc, List.take_append_drop, htext]
  rw [number?, mantissaEnd?_eq htext, liftM_some_bind, scanNumeral]
  dsimp only
  split
  · rfl
  · rw [exponentEnd?_eq hbehind, liftM_some_bind, List.append_assoc, ← List.take_add,
      slice?_of_eq htext, liftM_some_bind]
    cases readDecimal? (rest.take
      ((mantissaLength rest).1 + exponentLength (rest.drop (mantissaLength rest).1))) <;> rfl

theorem word?_eq {c : Char} {others : Text} (htext : text = before ++ c :: others)
    (hc : c.isAlpha = true) :
    word? text (byteLength before) = known (placed before (c :: others) <$>
      match wordToken (c :: others.takeWhile Char.isAlpha) with
      | .ok token => .ok (token, (c :: others.takeWhile Char.isAlpha).length)
      | .error cause => .error cause) := by
  have hword : (c :: others).takeWhile Char.isAlpha = c :: others.takeWhile Char.isAlpha :=
    List.takeWhile_cons_of_pos hc
  have hprefix := List.prefix_iff_eq_take.1 (List.takeWhile_prefix (l := c :: others) Char.isAlpha)
  rw [word?, skip?_eq (fun _ _ => rfl) htext (length_lt_rounds htext), liftM_some_bind, hprefix,
    slice?_of_eq htext, liftM_some_bind, ← hprefix, hword]
  cases wordToken (c :: others.takeWhile Char.isAlpha) with
  | ok token =>
    rw [map_ok, placed, ← hword, ← hprefix]
    rfl
  | error cause => rfl

/-- A function of one character is found by the character alone. -/
theorem atStart?_of_isSymbol {c : Char} (hc : NamedFunction.isSymbol c = true) (others : Text) :
    (NamedFunction.atStart? (c :: others)).map (fun entry => Token.function entry.2) =
      symbolToken? c := by
  rw [NamedFunction.isSymbol, Bool.or_eq_true, beq_iff_eq, beq_iff_eq] at hc
  rcases hc with rfl | rfl <;> rfl

theorem character?_eq {c : Char} {others : Text} (htext : text = before ++ c :: others) :
    character? text c (byteLength before) = some (symbolToken? c) := by
  rw [character?]
  split
  · next hc =>
    rw [restAt?_of_eq htext, ← atStart?_of_isSymbol hc others]
    rfl
  · rfl

theorem symbol?_eq {c : Char} {others : Text} (htext : text = before ++ c :: others) :
    symbol? text c (byteLength before) = known (placed before (c :: others) <$>
      match symbolToken? c with
      | some token => .ok (token, 1)
      | none => .error (.unexpectedToken [c] (byteLength before))) := by
  have hstop : byteLength before + c.utf8Size = byteLength (before ++ [c]) := by
    rw [byteLength_append]
    rfl
  rw [symbol?, character?_eq htext, liftM_some_bind, hstop]
  cases symbolToken? c <;> rfl

theorem token?_eq {c : Char} {others : Text} (htext : text = before ++ c :: others) :
    token? text c (byteLength before) =
      known (placed before (c :: others) <$> scanToken (byteLength before) c others) := by
  rw [token?, scanToken]
  split
  · exact number?_eq htext
  split
  · next hc => exact word?_eq htext hc
  · exact symbol?_eq htext

/-! ## The whole text -/

theorem skipBlanks_eq {blanks : Text} (hblanks : ∀ c ∈ blanks, Text.isBlank c = true)
    (hrest : ∀ c, rest.head? = some c → Text.isBlank c = false)
    (htext : text = before ++ (blanks ++ rest)) :
    skip? text Text.isBlank Char.utf8Size (rounds text) (byteLength before) =
      some (byteLength (before ++ blanks)) := by
  rw [skip?_eq (fun _ _ => rfl) htext (length_lt_rounds htext), takeWhile_run hblanks hrest]

theorem next?_ending {blanks : Text} (hblanks : ∀ c ∈ blanks, Text.isBlank c = true)
    (htext : text = before ++ blanks) :
    next? text (byteLength before) = pure (.ending (byteLength text), byteLength text) := by
  have hnothing : ∀ c, ([] : Text).head? = some c → Text.isBlank c = false := nofun
  have hend : text = before ++ blanks ++ [] := by rw [htext, List.append_nil]
  rw [next?, skipBlanks_eq hblanks hnothing (by rw [hend, List.append_assoc]), liftM_some_bind,
    restAt?_of_eq hend, liftM_some_bind, ← htext]
  rfl

theorem next?_token {c : Char} {blanks others : Text}
    (hblanks : ∀ c ∈ blanks, Text.isBlank c = true) (hc : Text.isBlank c = false)
    (htext : text = before ++ (blanks ++ c :: others)) :
    next? text (byteLength before) = (do
      let (token, stop) ← known (placed (before ++ blanks) (c :: others) <$>
        scanToken (byteLength (before ++ blanks)) c others)
      return (.token token (byteLength (before ++ blanks)), stop)) := by
  have hplace : text = before ++ blanks ++ c :: others := by rw [htext, List.append_assoc]
  rw [next?, skipBlanks_eq hblanks (by simpa using hc) htext, liftM_some_bind,
    restAt?_of_eq hplace, liftM_some_bind, List.head?_cons]
  dsimp only
  rw [token?_eq hplace]

/-- The tokens from a position on, each round of them in a shorter rest of the text. -/
theorem itemsFrom?_eq {rounds : Nat} (htext : text = before ++ rest)
    (hrounds : rest.length < rounds) :
    itemsFrom? text rounds (byteLength before) =
      known ((fun found => found.map Lexeme.item ++ [.ending (byteLength text)]) <$>
        lexemesFrom (byteLength before) rest) := by
  induction rounds generalizing before rest with
  | zero => exact absurd hrounds (Nat.not_lt_zero _)
  | succ rounds ih =>
    obtain ⟨blanks, behind, rfl, hblanks, hbehind⟩ := exists_blanks rest
    rw [itemsFrom?, lexemesFrom_blanks hblanks, ← byteLength_append]
    cases behind with
    | nil =>
      rw [List.append_nil] at htext
      rw [next?_ending hblanks htext, pure_bind, lexemesFrom_nil]
      rfl
    | cons c others =>
      have hblank := hbehind c rfl
      rw [next?_token hblanks hblank htext]
      cases hscan : scanToken (byteLength (before ++ blanks)) c others with
      | error cause =>
        rw [map_error, known_error_bind, known_error_bind, lexemesFrom.eq_def]
        simp [hblank, hscan]
      | ok scanned =>
        obtain ⟨token, length⟩ := scanned
        obtain ⟨piece, rest, hpiece⟩ := exists_isPiece hblank hscan
        obtain ⟨hsplit, rfl, hpiece⟩ := hpiece
        -- a token is not empty, so a round less is enough for the rest
        have hshorter : rest.length < rounds := by
          have hpos := List.length_pos_iff.2 hpiece.scans.ne_nil
          rw [hsplit, List.length_append, List.length_append] at hrounds
          omega
        have hnext : text = before ++ blanks ++ piece ++ rest := by
          rw [htext, hsplit, List.append_assoc, List.append_assoc]
        rw [map_ok, known_ok_bind, placed, hsplit, List.take_left,
          hpiece.scans.lexemesFrom_eq]
        dsimp only
        rw [pure_bind]
        dsimp only
        rw [ih hnext hshorter, byteLength_append _ piece]
        cases lexemesFrom (byteLength (before ++ blanks) + byteLength piece) rest with
        | error cause => rw [map_error, known_error_bind, map_error, map_error]
        | ok found =>
          rw [map_ok, known_ok_bind, map_ok, map_ok]
          rfl

theorem items?_eq (text : Text) :
    items? text = some ((fun lexemes => lexemes.map Lexeme.item ++ [.ending (byteLength text)]) <$>
      lexemes text) := by
  have htext : text = [] ++ text := rfl
  exact itemsFrom?_eq htext (length_lt_rounds htext)

end Positions

end ByteScanner

/-- The scan by positions finds the lexemes of any text and one end behind them.  The offsets
increase, the text can be cut at each of them, in front of the character that a fault names,
and the parts are the lexemes one by one, with blanks behind each and in front of the first. -/
theorem tokens_cut_text (text : Text) :
    ByteScanner.items? text =
        some ((fun found => found.map Lexeme.item ++ [.ending (byteLength text)]) <$>
          lexemes text) ∧
      text.restAt? (byteLength text) = some [] ∧
      ∀ found, lexemes text = .ok found →
        (found.map Lexeme.offset).Pairwise (· < ·) ∧
          (∀ l ∈ found, l.offset < byteLength text ∧
            ∃ rest, text.restAt? l.offset = some rest ∧
              unexpected l = .unexpectedToken (rest.take 1) l.offset) ∧
          ∃ lead parts, cutAt? 0 (found.map Lexeme.offset) text = some (lead :: parts) ∧
            (∀ c ∈ lead, Text.isBlank c = true) ∧ List.Forall₂ IsLexemeOf parts found := by
  have hend : text.restAt? (byteLength text) = some [] :=
    ByteScanner.restAt?_of_eq (List.append_nil text).symm
  refine ⟨ByteScanner.items?_eq text, hend, fun found hfound => ?_⟩
  have hpieces : InPieces 0 text found := inPieces_of_lexemesFrom hfound
  refine ⟨hpieces.offsets_increase, fun l hl => ?_, hpieces.exists_cutAt?⟩
  obtain ⟨before, rest, htext, hne, hoffset⟩ := hpieces.exists_append hl
  rw [Nat.zero_add] at hoffset
  have hinside : l.offset < byteLength text := by
    simpa using (hpieces.offset_lt l hl).2
  have hrest : text.restAt? l.offset = some (l.text ++ rest) := by
    rw [hoffset]
    exact ByteScanner.restAt?_of_eq htext
  have hfirst : l.text.take 1 = (l.text ++ rest).take 1 := by
    rw [List.take_append_of_le_length (List.length_pos_iff.2 hne)]
  refine ⟨hinside, _, hrest, ?_⟩
  rw [unexpected, hfirst]

/-- A character of two bytes and blanks lie between the offsets. -/
theorem tokens_cut_text_pi :
    ∃ found, lexemes "\u03c0 + e".toList = .ok found ∧ found.map Lexeme.offset = [0, 3, 5] ∧
      List.Forall₂ IsLexemeOf ["\u03c0 ".toList, "+ ".toList, "e".toList] found := by
  have hoffsets : List.map Lexeme.offset <$> lexemes "\u03c0 + e".toList = .ok [0, 3, 5] := by
    cbv
  obtain ⟨found, hfound, hoffsets⟩ := map_eq_ok_iff.1 hoffsets
  obtain ⟨-, -, lead, parts, hcut, -, hparts⟩ := (tokens_cut_text _).2.2 found hfound
  rw [hoffsets] at hcut
  cases hcut
  exact ⟨found, hfound, hoffsets, hparts⟩

end MatrixCalculator.Scalar
