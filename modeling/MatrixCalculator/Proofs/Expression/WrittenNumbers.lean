import MatrixCalculator.Proofs.Expression.Quiet
import MatrixCalculator.Proofs.Numeral.Comparison
import MatrixCalculator.Proofs.Numeral.Extent

/-!
# Written numbers in expressions

Results go back into the text of an expression and are scanned there again: by the lexer,
by the two scans for the end of a numeral, by the split into operands and by the passes
over marks and constants.  Each of these has rules of its own for points, exponents and
hyphens, and each of them takes a written finite number for one unit.
-/

namespace MatrixCalculator.Expression

open Numeral Outcome Scalar

variable {text rest : Text} {x : Float}

def unsigned : Text → Text
  | '-' :: text => text
  | text => text

def delimiters : Text :=
  [Symbol.times, Symbol.divide, Symbol.minus] ++ "*/^+-%!()[],".toList

/-- Whether a text is empty or begins with an operator, a mark, a bracket or a comma. -/
def IsDelimited (text : Text) : Prop :=
  text = [] ∨ Symbol.modulo <+: text ∨ ∃ c, text.head? = some c ∧ c ∈ delimiters

/-- No numeral goes on with a delimiter. -/
theorem IsDelimited.endsNumeral (hrest : IsDelimited rest) : EndsNumeral rest := by
  rcases hrest with rfl | ⟨others, rfl⟩ | ⟨c, hhead, hmem⟩
  · exact endsNumeral_nil
  · rintro _ ⟨⟩
    decide
  · have hdelimiters : ∀ c ∈ delimiters, c.isDigit = false ∧ c ≠ '.' ∧ c ≠ 'e' ∧ c ≠ 'E' :=
      List.all_iff_forall_prop.1 (by decide)
    intro d hd
    obtain rfl : c = d := Option.some_inj.1 (hhead.symm.trans hd)
    exact hdelimiters c hmem

/-- Whether a text is taken for one number, with a sign or not, by all that scan it, and
ends in front of another text where it does. -/
structure ScansWhole (text rest : Text) (y : Float) : Prop where
  lexemes_eq : lexemes (unsigned text) = .ok [⟨.number y, 0, unsigned text⟩]
  begins : isDigit? (unsigned text).head? = true
  signedExtent_eq : signedExtent (text ++ rest) = text.length
  extent_eq : extent (unsigned text ++ rest) = (unsigned text).length
  split_eq : Chain.split text = ⟨[text], []⟩
  spellPercents_eq : spellPercents none text = text
  spellFactorials_eq : spellFactorials false text = .ok text
  spellConstants_eq : spellConstants none text = text

/-- A sign is all that is dropped of a numeral. -/
theorem unsigned_text (s : SignedSpelling) : unsigned s.text = s.magnitude.text := by
  obtain ⟨negative, s⟩ := s
  cases negative with
  | true => rfl
  | false =>
    change unsigned s.text = s.text
    obtain ⟨c, others, htext, hc⟩ := s.exists_cons
    rw [htext, unsigned]
    rintro tail ⟨⟩
    cases hc

/-- A numeral on its own is one lexeme. -/
theorem lexemes_text (s : Spelling) : lexemes s.text = .ok [⟨.number s.value, 0, s.text⟩] := by
  have hscans := scansAs_typed (endsNumeral_nil.endsTyped s.typed)
  have hlexemes := hscans.lexemesFrom_eq 0
  rwa [List.append_nil, s.text_typed, s.value_typed, lexemesFrom_nil, map_ok] at hlexemes

/-- Every numeral with the small mark is scanned whole. -/
theorem scansWhole_signed (s : SignedSpelling) (hmark : s.magnitude.HasSmallMark)
    (hrest : EndsNumeral rest) : ScansWhole s.text rest s.magnitude.value where
  lexemes_eq := by rw [unsigned_text, lexemes_text]
  begins := by
    obtain ⟨c, others, htext, hc⟩ := s.magnitude.exists_cons
    rw [unsigned_text, htext]
    exact hc
  signedExtent_eq := signedExtent_append hmark hrest
  extent_eq := by rw [unsigned_text, extent_append hmark hrest]
  split_eq := Chain.splitAfter_eq ((isPiece_signed s).solid none rfl)
  spellPercents_eq := spellPercents_eq (not_mem_signed s (by decide))
  spellFactorials_eq := spellFactorials_eq false (not_mem_signed s (by decide))
  spellConstants_eq := spellConstants_eq (fits_signed s none)

/-- A numeral begins with a hyphen where it has a sign. -/
theorem head?_signed_eq (s : SignedSpelling) :
    s.text.head? = some '-' ↔ s.negative = true := by
  obtain ⟨negative, s⟩ := s
  obtain ⟨c, others, htext, hc⟩ := s.exists_cons
  cases negative with
  | true => exact iff_of_true rfl rfl
  | false =>
    refine iff_of_false ?_ Bool.false_ne_true
    change s.text.head? ≠ some '-'
    rw [htext, List.head?_cons, ne_eq, Option.some_inj]
    exact ne_of_isDigit hc (by decide)

/-- Every written finite number is scanned whole in front of every operator, bracket and comma, and
denotes the number shown.  It has a sign only if the number is negative and no noise. -/
theorem scansWhole_write (hx : x.isFinite = true) (hrest : IsDelimited rest) :
    ScansWhole (write x) rest (shown x).abs ∧
      ((write x).head? = some '-' ↔ value x < 0 ∧ value snapBound ≤ magnitude x) := by
  obtain ⟨s, hmark, hwrite, hvalue⟩ := exists_write_eq hx
  have htext : write x = SignedSpelling.text ⟨isNegative (shown x), s⟩ := hwrite
  rw [htext, ← hvalue, head?_signed_eq, isNegative_shown_iff hx]
  exact ⟨scansWhole_signed ⟨_, s⟩ hmark hrest.endsNumeral, Iff.rfl⟩

theorem scansWhole_write_exponent : write (-1.5e-5) = "-1.5e-5".toList ∧
    ScansWhole "-1.5e-5".toList "mod2".toList 1.5e-5 ∧ value (-1.5e-5) < 0 := by
  have hwrite : write (-1.5e-5) = "-1.5e-5".toList := by decide +kernel
  have hshown : (shown (-1.5e-5)).abs = 1.5e-5 := by decide +kernel
  obtain ⟨hunit, hsign⟩ := @scansWhole_write "mod2".toList (-1.5e-5) (by decide)
    (.inr (.inl ⟨['2'], rfl⟩))
  rw [hwrite, hshown] at hunit
  rw [hwrite] at hsign
  exact ⟨hwrite, hunit, (hsign.1 rfl).1⟩

end MatrixCalculator.Expression
