import MatrixCalculator.Operand
import MatrixCalculator.Proofs.Chain.Split
import MatrixCalculator.Proofs.Numeral.Written

/-!
# The texts of values

Numerals, written numbers and literals are made of few characters, and what stands in
front of each of them is known.  A rule about neighbouring characters that admits
these holds throughout the text of every value.  The first such rule is that no
operator is found there.
-/

namespace MatrixCalculator.Expression

open Chain Numeral Text

/-- Whether a rule about neighbouring characters admits what numerals are made of. -/
structure AdmitsNumerals (allowed : Option Char → Char → Prop) : Prop where
  digit : ∀ previous c, c.isDigit = true → allowed previous c
  point : ∀ previous, allowed previous '.'
  mark : ∀ c mark, c.isDigit = true → mark = 'e' ∨ mark = 'E' → allowed (some c) mark
  exponentSign : ∀ mark, mark = 'e' ∨ mark = 'E' → allowed (some mark) '-'

/-- Whether it also admits the words that are written for the other numbers. -/
structure AdmitsNumbers (allowed : Option Char → Char → Prop) : Prop
    extends AdmitsNumerals allowed where
  letter : ∀ previous, ∀ c ∈ infinityWord, allowed previous c
  notANumber : ∀ previous, allowed previous 'N' ∧ allowed (some 'N') 'a'

/-- Whether it also admits literals. -/
structure AdmitsValues (allowed : Option Char → Char → Prop) : Prop
    extends AdmitsNumbers allowed where
  bracket : ∀ previous, ∀ c ∈ ['[', ']', ','], allowed previous c
  fieldSign : allowed (some '[') '-' ∧ allowed (some ',') '-'

variable {allowed : Option Char → Char → Prop} {previous : Option Char}

/-! ## Numerals -/

theorem ending_digits (previous : Option Char) (d : DigitText) :
    ∃ c, c.isDigit = true ∧ ending previous d.text = some c := by
  obtain ⟨c, hmem, hending⟩ := exists_ending d.ne_nil
  exact ⟨c, d.isDigit c hmem, hending⟩

theorem ending_fraction (s : Spelling) {c : Char} (hc : c.isDigit = true) :
    ∃ d, d.isDigit = true ∧ ending (some c) s.fractionText = some d := by
  rw [Spelling.fractionText]
  cases s.fraction with
  | none => exact ⟨c, hc, rfl⟩
  | some digits => exact ending_digits _ digits

theorem ending_exponent (s : Spelling) {c : Char} (hc : c.isDigit = true) :
    ∃ d, d.isDigit = true ∧ ending (some c) s.exponentText = some d := by
  rw [Spelling.exponentText]
  cases s.exponent with
  | none => exact ⟨c, hc, rfl⟩
  | some e =>
    rw [Option.elim_some, ExponentText.text, ← List.cons_append, ending_append]
    exact ending_digits _ e.digits

/-- Every numeral ends with a digit. -/
theorem ending_spelling (previous : Option Char) (s : Spelling) :
    ∃ c, c.isDigit = true ∧ ending previous s.text = some c := by
  obtain ⟨c, hc, hwhole⟩ := ending_digits previous s.whole
  obtain ⟨d, hd, hfraction⟩ := ending_fraction s hc
  rw [Spelling.text, ending_append, ending_append, hwhole, hfraction]
  exact ending_exponent s hd

theorem ending_signed (previous : Option Char) (s : SignedSpelling) :
    ∃ c, c.isDigit = true ∧ ending previous s.text = some c := by
  rw [SignedSpelling.text]
  split
  · exact ending_spelling _ s.magnitude
  · exact ending_spelling _ s.magnitude

section Numerals

variable (hallowed : AdmitsNumerals allowed)
include hallowed

theorem fits_digits (d : DigitText) : Fits allowed d.text :=
  fits_of_forall fun before c hc => hallowed.digit before c (d.isDigit c hc)

theorem follows_exponent (s : Spelling) {c : Char} (hc : c.isDigit = true) :
    Follows allowed (some c) s.exponentText := by
  rw [Spelling.exponentText]
  cases s.exponent with
  | none => trivial
  | some e =>
    refine ⟨hallowed.mark c e.mark hc e.isMark, follows_append.2 ⟨?_, fits_digits hallowed _ _⟩⟩
    rw [ExponentText.sign]
    split
    · exact ⟨hallowed.exponentSign e.mark e.isMark, trivial⟩
    · trivial

theorem fits_spelling (s : Spelling) : Fits allowed s.text := by
  intro previous
  obtain ⟨c, hc, hwhole⟩ := ending_digits previous s.whole
  obtain ⟨d, hd, hfraction⟩ := ending_fraction s hc
  rw [Spelling.text, follows_append, follows_append, hwhole, hfraction]
  refine ⟨fits_digits hallowed _ _, ?_, follows_exponent hallowed s hd⟩
  rw [Spelling.fractionText]
  cases s.fraction with
  | none => trivial
  | some digits => exact ⟨hallowed.point (some c), fits_digits hallowed _ _⟩

theorem follows_signed (s : SignedSpelling) (hsign : allowed previous '-') :
    Follows allowed previous s.text := by
  rw [SignedSpelling.text]
  split
  · exact ⟨hsign, fits_spelling hallowed _ _⟩
  · exact fits_spelling hallowed _ _

end Numerals

/-! ## Written numbers and literals -/

theorem follows_write (hallowed : AdmitsNumbers allowed) (x : Float)
    (hsign : allowed previous '-') : Follows allowed previous (write x) := by
  have hword : Fits allowed infinityWord := fits_of_forall hallowed.letter
  rcases kind_cases x with hx | hx | hx
  · obtain ⟨s, htext, -⟩ := spellsDouble_write hx
    rw [← htext]
    exact follows_signed hallowed.toAdmitsNumerals s hsign
  · rw [write_of_isInf hx, signed]
    split
    · exact ⟨hsign, hword _⟩
    · exact hword _
  · rw [write_of_isNaN hx]
    exact ⟨(hallowed.notANumber previous).1, (hallowed.notANumber none).2,
      (hallowed.notANumber (some 'a')).1, trivial⟩

section Values

variable (hallowed : AdmitsValues allowed)
include hallowed

theorem follows_fields (row : List Float) (hfirst : allowed previous '-') :
    Follows allowed previous ([','].intercalate (row.map write)) := by
  induction row generalizing previous with
  | nil => trivial
  | cons x row ih =>
    cases row with
    | nil => simpa using follows_write hallowed.toAdmitsNumbers x hfirst
    | cons y row =>
      rw [List.map_cons, List.map_cons, List.intercalate_cons_cons, follows_append,
        follows_append, ending_concat]
      refine ⟨⟨?_, hallowed.bracket _ ',' (by simp), trivial⟩, ih hallowed.fieldSign.2⟩
      exact follows_write hallowed.toAdmitsNumbers x hfirst

theorem fits_row (row : List Float) : Fits allowed (Literal.writeRow row) := by
  intro previous
  rw [Literal.writeRow, follows_append, follows_append]
  exact ⟨⟨⟨hallowed.bracket _ '[' (by simp), trivial⟩,
    follows_fields hallowed row hallowed.fieldSign.1⟩, hallowed.bracket _ ']' (by simp), trivial⟩

theorem fits_literal (m : Matrix Float) : Fits allowed (Literal.write m) := by
  have hopen : Fits allowed ['['] := fun before => ⟨hallowed.bracket before '[' (by simp), trivial⟩
  have hclose : Fits allowed [']'] := fun before => ⟨hallowed.bracket before ']' (by simp), trivial⟩
  exact (hopen.append (fits_flatMap fun row _ => fits_row hallowed row)).append hclose

theorem follows_operand (x : Operand) (hsign : allowed previous '-') :
    Follows allowed previous x.write := by
  cases x with
  | scalar x => exact follows_write hallowed.toAdmitsNumbers x hsign
  | matrix m => exact fits_literal hallowed m previous

end Values

/-! ## The characters of values -/

def numeralAlphabet : Text := "0123456789.eE-".toList

def numberAlphabet : Text := numeralAlphabet ++ "InfityNa".toList

def valueAlphabet : Text := numberAlphabet ++ "[],".toList

def operatorAlphabet : Text := [Symbol.times, Symbol.divide] ++ "^mod+-".toList

/-- An alphabet with the characters of numerals admits numerals. -/
theorem admitsNumerals_of_subset {characters : Text}
    (hsubset : ∀ c ∈ numeralAlphabet, c ∈ characters) :
    AdmitsNumerals fun _ c => c ∈ characters where
  digit _ c hc := by
    have hdigits : ∀ d ∈ "0123456789".toList, d ∈ numeralAlphabet :=
      List.all_iff_forall_prop.1 (by decide)
    exact hsubset c (of_isDigit (fun d => d ∈ numeralAlphabet) hdigits hc)
  point _ := hsubset '.' (by decide)
  mark _ mark _ hmark := by
    rcases hmark with rfl | rfl
    · exact hsubset 'e' (by decide)
    · exact hsubset 'E' (by decide)
  exponentSign _ _ := hsubset '-' (by decide)

theorem admitsNumbers_of_subset {characters : Text}
    (hsubset : ∀ c ∈ numberAlphabet, c ∈ characters) :
    AdmitsNumbers fun _ c => c ∈ characters where
  toAdmitsNumerals := admitsNumerals_of_subset fun c hc => hsubset c (List.mem_append_left _ hc)
  letter _ c hc := by
    have hletters : ∀ c ∈ infinityWord, c ∈ numberAlphabet :=
      List.all_iff_forall_prop.1 (by decide)
    exact hsubset c (hletters c hc)
  notANumber _ := ⟨hsubset 'N' (by decide), hsubset 'a' (by decide)⟩

theorem admitsValues_alphabet : AdmitsValues fun _ c => c ∈ valueAlphabet where
  toAdmitsNumbers := admitsNumbers_of_subset fun c hc => List.mem_append_left _ hc
  bracket _ := List.all_iff_forall_prop.1 (by decide)
  fieldSign := by decide

section NotMem

variable {c : Char}

theorem not_mem_signed (s : SignedSpelling) (hc : c ∉ numeralAlphabet) : c ∉ s.text := by
  have hfollows : Follows (fun _ c => c ∈ numeralAlphabet) none s.text :=
    follows_signed (admitsNumerals_of_subset fun _ => id) s (by decide)
  exact fun hmem => hc (hfollows.forall_mem (fun _ _ => id) c hmem)

theorem not_mem_number (x : Float) (hc : c ∉ numberAlphabet) : c ∉ write x := by
  have hfollows : Follows (fun _ c => c ∈ numberAlphabet) none (write x) :=
    follows_write (admitsNumbers_of_subset fun _ => id) x (by decide)
  exact fun hmem => hc (hfollows.forall_mem (fun _ _ => id) c hmem)

theorem not_mem_writePositional (x : Float) (hc : c ∉ numberAlphabet) : c ∉ writePositional x := by
  have hword : ∀ word : Text, (∀ d ∈ '-' :: word, d ∈ numberAlphabet) → c ∉ signed x word := by
    intro word hsubset hmem
    rw [signed] at hmem
    split at hmem
    · exact hc (hsubset c hmem)
    · exact hc (hsubset c (List.mem_cons_of_mem _ hmem))
  have hnan : ∀ d ∈ "NaN".toList, d ∈ numberAlphabet := List.all_iff_forall_prop.1 (by decide)
  rw [writePositional]
  split
  · exact fun hmem => hc (hnan c hmem)
  · next hnumber =>
    split
    · exact hword _ (List.all_iff_forall_prop.1 (by decide))
    · next hbounded =>
      split
      · exact hword _ (List.all_iff_forall_prop.1 (by decide))
      · next hzero =>
        have hfinite := (kind_cases x).resolve_right (not_or.2 ⟨hbounded, hnumber⟩)
        obtain ⟨s, htext, -⟩ := (spellsDouble_shortest hfinite hzero).1
        rw [← htext]
        exact not_mem_signed s fun hmem => hc (List.mem_append_left _ hmem)

theorem not_mem_operand (x : Operand) (hc : c ∉ valueAlphabet) : c ∉ x.write := by
  have hfollows : Follows (fun _ c => c ∈ valueAlphabet) none x.write :=
    follows_operand admitsValues_alphabet x (by decide)
  exact fun hmem => hc (hfollows.forall_mem (fun _ _ => id) c hmem)

theorem not_mem_symbol (op : Operator) (hc : c ∉ operatorAlphabet) : c ∉ op.symbol := by
  have hsymbol : ∀ c ∈ op.symbol, c ∈ operatorAlphabet := by
    cases op <;> exact List.all_iff_forall_prop.1 (by decide)
  exact fun hmem => hc (hsymbol c hmem)

end NotMem

/-- Only what is not a number is written with the letter that its word begins with. -/
theorem not_mem_write {x : Float} (hx : x.isNaN = false) : 'N' ∉ write x := by
  rcases kind_cases x with hkind | hkind | hkind
  · obtain ⟨s, htext, -⟩ := spellsDouble_write hkind
    rw [← htext]
    exact not_mem_signed s (by decide)
  · rw [write_of_isInf hkind, signed]
    split <;> decide
  · rw [hx] at hkind
    cases hkind

/-! ## Operands of a chain -/

theorem isSolid {c : Char} (hword : c ≠ 'm') (hminus : c ≠ '-') (hop : Operator.ofChar? c = none) :
    IsSolid previous c := by
  refine ⟨hword, ?_⟩
  rw [operatorAt?, if_neg (by simp [hminus]), hop]

theorem isSolid_minus (hbegins : endsOperand previous = false) : IsSolid previous '-' := by
  refine ⟨by decide, ?_⟩
  rw [operatorAt?, if_neg (by simp [hbegins])]
  rfl

theorem admitsValues_isSolid : AdmitsValues IsSolid where
  digit previous c hc := by
    obtain ⟨hword, hminus, hop⟩ := of_isDigit
      (fun c => c ≠ 'm' ∧ c ≠ '-' ∧ Operator.ofChar? c = none)
      (List.all_iff_forall_prop.1 (by decide)) hc
    exact isSolid hword hminus hop
  point previous := isSolid (by decide) (by decide) (by decide)
  mark c mark hc hmark := by
    rcases hmark with rfl | rfl
    · exact isSolid (by decide) (by decide) (by decide)
    · exact isSolid (by decide) (by decide) (by decide)
  exponentSign mark hmark := by
    rcases hmark with rfl | rfl
    · exact isSolid_minus (by decide)
    · exact isSolid_minus (by decide)
  letter previous c hc := by
    have hletters : ∀ c ∈ infinityWord, c ≠ 'm' ∧ c ≠ '-' ∧ Operator.ofChar? c = none :=
      List.all_iff_forall_prop.1 (by decide)
    obtain ⟨hword, hminus, hop⟩ := hletters c hc
    exact isSolid hword hminus hop
  notANumber previous :=
    ⟨isSolid (by decide) (by decide) (by decide), isSolid (by decide) (by decide) (by decide)⟩
  bracket previous c hc := by
    have hbrackets : ∀ c ∈ ['[', ']', ','], c ≠ 'm' ∧ c ≠ '-' ∧ Operator.ofChar? c = none :=
      List.all_iff_forall_prop.1 (by decide)
    obtain ⟨hword, hminus, hop⟩ := hbrackets c hc
    exact isSolid hword hminus hop
  fieldSign := ⟨isSolid_minus (by decide), isSolid_minus (by decide)⟩

theorem endsOperand_of_isDigit {c : Char} (hc : c.isDigit = true) :
    endsOperand (some c) = true := by
  simp [endsOperand, hc]

theorem isPiece_signed (s : SignedSpelling) : IsPiece s.text where
  solid _ hbegins := follows_signed admitsValues_isSolid.toAdmitsNumerals s (isSolid_minus hbegins)
  ends previous := by
    obtain ⟨c, hc, hending⟩ := ending_signed previous s
    rw [hending]
    exact endsOperand_of_isDigit hc

/-- A finite number is written as one operand. -/
theorem isPiece_write {x : Float} (hx : x.isFinite = true) : IsPiece (write x) := by
  obtain ⟨s, htext, -⟩ := spellsDouble_write hx
  rw [← htext]
  exact isPiece_signed s

/-- A matrix is written as one operand. -/
theorem isPiece_literal (m : Matrix Float) : IsPiece (Literal.write m) where
  solid previous _ := fits_literal admitsValues_isSolid m previous
  ends previous := by
    rw [Literal.write, ending_concat]
    rfl

end MatrixCalculator.Expression
