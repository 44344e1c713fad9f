import MatrixCalculator.Proofs.Scalar.BytePositions
import MatrixCalculator.Proofs.Scalar.Characters
import MatrixCalculator.Proofs.Scalar.Scanning

/-!
# A text in pieces

A text that is cut into lexemes is blanks, the text of the first lexeme, blanks again and so
on.  The text of a lexeme has no blank in it and is the same lexeme by itself, so the offsets
cut the text where its pieces begin.
-/

namespace MatrixCalculator.Scalar

open Numeral Outcome Text

variable {text piece blanks rest : Text} {token : Token} {offset length : Nat}
  {found : List Lexeme}

/-! ## The text of a token -/

/-- Whether a text without blanks is a token in front of another text and by itself. -/
structure IsPiece (piece : Text) (token : Token) (rest : Text) : Prop where
  scans : ScansAs piece token rest
  alone : ScansAs piece token []
  solid : ∀ c ∈ piece, Text.isBlank c = false

theorem ScansAs.ne_nil (hscans : ScansAs piece token rest) : piece ≠ [] := by
  obtain ⟨c, others, rfl, -⟩ := hscans
  exact List.cons_ne_nil c others

/-- A piece by itself is cut into one lexeme. -/
theorem IsPiece.lexemes_eq (hpiece : IsPiece piece token rest) :
    lexemes piece = .ok [⟨token, 0, piece⟩] := by
  have hlexemes := hpiece.alone.lexemesFrom_eq 0
  rwa [List.append_nil, lexemesFrom_nil, map_ok] at hlexemes

theorem isBlank_of_mem_typed {s : TypedNumeral} {c : Char} (hc : c ∈ s.text) :
    Text.isBlank c = false := by
  have hread : readDecimal? s.text = some s.decimal := readDecimal?_eq_some_iff.2 ⟨s, rfl, rfl⟩
  have hothers : ∀ c ∈ ".eE+-".toList, Text.isBlank c = false :=
    List.all_iff_forall_prop.1 (by decide)
  rcases isDecimalChar_of_readDecimal? (Option.isSome_of_eq_some hread) c hc with h | h
  · exact isBlank_of_isDigit h
  · exact hothers c h

/-- Each of the tokens ends with the text as well. -/
theorem isPiece_of_isToken (htoken : IsToken piece token rest) : IsPiece piece token rest := by
  cases htoken with
  | numeral s hends =>
    exact ⟨scansAs_typed hends, scansAs_typed endsTyped_nil, fun c => isBlank_of_mem_typed⟩
  | @word c word _ _ hletters htoken hends =>
    have hc := hletters c (List.mem_cons_self ..)
    have hscans : ∀ {rest}, EndsWord rest → ScansAs (c :: word) token rest :=
      scansAs_word hletters (isBlank_of_isAlpha hc) (isDigit_of_isAlpha hc)
        (ne_point_of_isAlpha hc) htoken
    exact ⟨hscans hends, hscans nofun, fun d hd => isBlank_of_isAlpha (hletters d hd)⟩
  | symbol hblank hdigit hpoint halpha htoken =>
    exact ⟨scansAs_symbol hblank hdigit hpoint halpha htoken,
      scansAs_symbol hblank hdigit hpoint halpha htoken, List.forall_mem_singleton.2 hblank⟩

/-- What is scanned as a token is a piece. -/
theorem exists_isPiece {c : Char} (hblank : Text.isBlank c = false)
    (hscan : scanToken offset c text = .ok (token, length)) :
    ∃ piece rest, c :: text = piece ++ rest ∧ piece.length = length ∧
      IsPiece piece token rest := by
  obtain ⟨piece, rest, htext, hlength, htoken⟩ := exists_isToken hblank hscan
  exact ⟨piece, rest, htext, hlength, isPiece_of_isToken htoken⟩

/-! ## The pieces of a text -/

theorem lexemesFrom_blanks (hblanks : ∀ c ∈ blanks, Text.isBlank c = true) (offset : Nat)
    (rest : Text) :
    lexemesFrom offset (blanks ++ rest) = lexemesFrom (offset + byteLength blanks) rest := by
  induction blanks generalizing offset with
  | nil => rfl
  | cons c blanks ih =>
    rw [List.forall_mem_cons] at hblanks
    rw [List.cons_append, lexemesFrom.eq_def]
    dsimp only
    rw [if_pos hblanks.1, ih hblanks.2, byteLength, Nat.add_assoc]

/-- Every text begins with blanks, if only with none. -/
theorem exists_blanks (text : Text) :
    ∃ blanks behind, text = blanks ++ behind ∧ (∀ c ∈ blanks, Text.isBlank c = true) ∧
      ∀ c, behind.head? = some c → Text.isBlank c = false :=
  ⟨text.takeWhile Text.isBlank, text.dropWhile Text.isBlank,
    List.takeWhile_append_dropWhile.symm, fun _ => List.mem_takeWhile_imp, head?_dropWhile text⟩

/-- A text at an offset as blanks and pieces in turn, with a lexeme for each piece. -/
inductive InPieces : (offset : Nat) → Text → List Lexeme → Prop
  | ending {offset : Nat} {blanks : Text} (hblanks : ∀ c ∈ blanks, Text.isBlank c = true) :
      InPieces offset blanks []
  | piece {offset : Nat} {blanks piece rest : Text} {token : Token} {found : List Lexeme}
      (hblanks : ∀ c ∈ blanks, Text.isBlank c = true) (hpiece : IsPiece piece token rest)
      (hrest : InPieces (offset + byteLength blanks + byteLength piece) rest found) :
      InPieces offset (blanks ++ (piece ++ rest))
        (⟨token, offset + byteLength blanks, piece⟩ :: found)

/-- By induction on the length of the text, what is behind a piece being shorter. -/
theorem inPieces_of_lexemesFrom (hfound : lexemesFrom offset text = .ok found) :
    InPieces offset text found := by
  induction hsize : text.length using Nat.strong_induction_on generalizing text offset found with
  | h size ih =>
    obtain ⟨blanks, behind, rfl, hblanks, hbehind⟩ := exists_blanks text
    rw [lexemesFrom_blanks hblanks] at hfound
    cases behind with
    | nil =>
      rw [lexemesFrom_nil] at hfound
      cases hfound
      rw [List.append_nil]
      exact .ending hblanks
    | cons c others =>
      have hblank := hbehind c rfl
      cases hscan : scanToken (offset + byteLength blanks) c others with
      | error cause =>
        rw [lexemesFrom.eq_def] at hfound
        simp [hblank, hscan] at hfound
      | ok scanned =>
        obtain ⟨token, length⟩ := scanned
        obtain ⟨piece, rest, htext, rfl, hpiece⟩ := exists_isPiece hblank hscan
        rw [htext] at hfound hsize ⊢
        rw [hpiece.scans.lexemesFrom_eq, map_eq_ok_iff] at hfound
        obtain ⟨found, hrest, rfl⟩ := hfound
        have hshorter : rest.length < size := by
          have hpos := List.length_pos_iff.2 hpiece.scans.ne_nil
          rw [← hsize, List.length_append, List.length_append]
          omega
        exact .piece hblanks hpiece (ih rest.length hshorter hrest rfl)

namespace InPieces

/-! ## Offsets -/

/-- A lexeme begins inside the text. -/
theorem offset_lt (hpieces : InPieces offset text found) :
    ∀ l ∈ found, offset ≤ l.offset ∧ l.offset < offset + byteLength text := by
  induction hpieces with
  | ending => exact nofun
  | @piece offset blanks piece rest token found hblanks hpiece hrest ih =>
    have hpos := byteLength_pos hpiece.scans.ne_nil
    rw [byteLength_append, byteLength_append]
    refine List.forall_mem_cons.2 ⟨by dsimp only; omega, fun l hl => ?_⟩
    obtain ⟨hfrom, hto⟩ := ih l hl
    omega

theorem offsets_increase (hpieces : InPieces offset text found) :
    (found.map Lexeme.offset).Pairwise (· < ·) := by
  induction hpieces with
  | ending => exact List.Pairwise.nil
  | @piece offset blanks piece rest token found hblanks hpiece hrest ih =>
    refine List.pairwise_cons.2 ⟨List.forall_mem_map.2 fun l hl => ?_, ih⟩
    have hpos := byteLength_pos hpiece.scans.ne_nil
    have hfrom := (hrest.offset_lt l hl).1
    dsimp only
    omega

/-- A text can be cut in front of a lexeme, the text of which stands behind that place. -/
theorem exists_append (hpieces : InPieces offset text found) {l : Lexeme} (hl : l ∈ found) :
    ∃ before rest, text = before ++ (l.text ++ rest) ∧ l.text ≠ [] ∧
      l.offset = offset + byteLength before := by
  induction hpieces with
  | ending => cases hl
  | @piece offset blanks piece rest token found hblanks hpiece hrest ih =>
    cases hl with
    | head => exact ⟨blanks, rest, rfl, hpiece.scans.ne_nil, rfl⟩
    | tail _ hl =>
      obtain ⟨before, behind, rfl, hne, hoffset⟩ := ih hl
      refine ⟨blanks ++ (piece ++ before), behind, by simp, hne, ?_⟩
      rw [hoffset, byteLength_append, byteLength_append, Nat.add_assoc, Nat.add_assoc]

end InPieces

/-! ## Cutting at the offsets -/

/-- The parts of a text that begins at a position, cut at later positions. -/
def cutAt? : (start : Nat) → (offsets : List Nat) → Text → Option (List Text)
  | _, [], text => some [text]
  | start, offset :: offsets, text =>
    if start ≤ offset then do
      let (part, rest) ← splitAtByte? (offset - start) text
      let parts ← cutAt? offset offsets rest
      return part :: parts
    else none

theorem cutAt?_cons_eq_some_iff {start : Nat} {offsets : List Nat} {parts : List Text} :
    cutAt? start (offset :: offsets) text = some parts ↔
      ∃ part rest others, text = part ++ rest ∧ offset = start + byteLength part ∧
        cutAt? offset offsets rest = some others ∧ parts = part :: others := by
  rw [cutAt?]
  constructor
  · intro hcut
    split at hcut
    · next hstart =>
      obtain ⟨⟨part, rest⟩, hsplit, hcut⟩ := Option.bind_eq_some_iff.1 hcut
      obtain ⟨others, hothers, hparts⟩ := Option.bind_eq_some_iff.1 hcut
      obtain ⟨rfl, hlength⟩ := splitAtByte?_eq_some_iff.1 hsplit
      cases hparts
      exact ⟨part, rest, others, rfl, by omega, hothers, rfl⟩
    · cases hcut
  · rintro ⟨part, rest, others, rfl, rfl, hothers, rfl⟩
    rw [if_pos (Nat.le_add_right _ _), Nat.add_sub_cancel_left, splitAtByte?_append]
    exact Option.bind_eq_some_iff.2
      ⟨(part, rest), rfl, Option.bind_eq_some_iff.2 ⟨others, hothers, rfl⟩⟩

/-- What stands in front of the first part belongs to it. -/
theorem cutAt?_append {start : Nat} {offsets : List Nat} {part : Text} {parts : List Text}
    (before : Text)
    (hcut : cutAt? (start + byteLength before) offsets rest = some (part :: parts)) :
    cutAt? start offsets (before ++ rest) = some ((before ++ part) :: parts) := by
  cases offsets with
  | nil =>
    cases hcut
    rfl
  | cons offset offsets =>
    obtain ⟨first, behind, others, rfl, hoffset, hothers, hparts⟩ :=
      cutAt?_cons_eq_some_iff.1 hcut
    cases hparts
    refine cutAt?_cons_eq_some_iff.2 ⟨before ++ part, behind, parts, ?_, ?_, hothers, rfl⟩
    · rw [List.append_assoc]
    · rw [hoffset, byteLength_append, Nat.add_assoc]

/-- Whether a part is a lexeme by itself, once the blanks at its end are gone. -/
def IsLexemeOf (part : Text) (l : Lexeme) : Prop :=
  part.rdropWhile Text.isBlank = l.text ∧ lexemes l.text = .ok [⟨l.token, 0, l.text⟩]

/-- Blanks behind a piece do not count. -/
theorem IsPiece.isLexemeOf (hpiece : IsPiece piece token rest)
    (hblanks : ∀ c ∈ blanks, Text.isBlank c = true) (offset : Nat) :
    IsLexemeOf (piece ++ blanks) ⟨token, offset, piece⟩ := by
  refine ⟨?_, hpiece.lexemes_eq⟩
  have hend : ∀ c, piece.reverse.head? = some c → Text.isBlank c = false :=
    fun c hc => hpiece.solid c (List.mem_reverse.1 (List.mem_of_head? hc))
  rw [List.rdropWhile, List.reverse_append,
    dropWhile_run (fun c hc => hblanks c (List.mem_reverse.1 hc)) hend, List.reverse_reverse]

/-- Cut at the offsets of its lexemes a text is blanks and a part for each of them. -/
theorem InPieces.exists_cutAt? (hpieces : InPieces offset text found) :
    ∃ lead parts, cutAt? offset (found.map Lexeme.offset) text = some (lead :: parts) ∧
      (∀ c ∈ lead, Text.isBlank c = true) ∧ List.Forall₂ IsLexemeOf parts found := by
  induction hpieces with
  | ending hblanks => exact ⟨_, [], rfl, hblanks, .nil⟩
  | @piece offset blanks piece rest token found hblanks hpiece hrest ih =>
    obtain ⟨lead, parts, hcut, hlead, hparts⟩ := ih
    refine ⟨blanks, (piece ++ lead) :: parts, ?_, hblanks, .cons (hpiece.isLexemeOf hlead _) hparts⟩
    exact cutAt?_cons_eq_some_iff.2 ⟨blanks, _, _, rfl, rfl, cutAt?_append piece hcut, rfl⟩

end MatrixCalculator.Scalar
