import MatrixCalculator.Proofs.Outcome
import MatrixCalculator.Scalar.Evaluation
import Mathlib.Data.Bool.AllAny
import Mathlib.Data.List.TakeWhile
import Mathlib.Tactic

/-!
# Characters of scalar expressions

A text is cut into lexemes without a gap, and a lexeme is made of few characters.  So a
text with any other character in it is no scalar expression, wherever the character
stands.
-/

namespace MatrixCalculator

namespace Numeral

variable {text : Text}

def IsDecimalChar (c : Char) : Prop := c.isDigit = true ∨ c ∈ ".eE+-".toList

theorem isDecimalChar_of_takeWhile {c : Char} (hc : c ∈ text.takeWhile Char.isDigit) :
    IsDecimalChar c :=
  .inl (List.mem_takeWhile_imp hc)

theorem isDecimalChar_of_whole? {digits : Text} (hread : (readExponent?.whole? digits).isSome) :
    ∀ c ∈ digits, IsDecimalChar c := by
  rw [readExponent?.whole?] at hread
  split at hread
  · next hdigits => exact fun c hc => .inl (List.all_eq_true.1 hdigits.2 c hc)
  · cases hread

theorem isDecimalChar_of_readExponent? (hread : (readExponent? text).isSome) :
    ∀ c ∈ text, IsDecimalChar c := by
  cases text with
  | nil => exact nofun
  | cons mark text =>
    rw [readExponent?.eq_def] at hread
    dsimp only at hread
    split at hread
    · next hmark =>
      refine List.forall_mem_cons.2 ⟨.inr (by rcases hmark with rfl | rfl <;> decide), ?_⟩
      split at hread
      · rw [Option.isSome_map] at hread
        exact List.forall_mem_cons.2 ⟨.inr (by decide),
          isDecimalChar_of_whole? (Option.isSome_of_isSome_bind hread)⟩
      · rw [Option.isSome_map] at hread
        exact List.forall_mem_cons.2 ⟨.inr (by decide),
          isDecimalChar_of_whole? (Option.isSome_of_isSome_bind hread)⟩
      · rw [Option.isSome_map] at hread
        exact isDecimalChar_of_whole? (Option.isSome_of_isSome_bind hread)
    · cases hread

/-- A numeral that can be read has no other characters. -/
theorem isDecimalChar_of_readDecimal? (hread : (readDecimal? text).isSome) :
    ∀ c ∈ text, IsDecimalChar c := by
  have hbehind : ∀ c ∈ text.dropWhile Char.isDigit, IsDecimalChar c := by
    rw [readDecimal?] at hread
    split at hread
    next fraction rest hsplit =>
    split at hread
    · cases hread
    · rw [Option.isSome_map] at hread
      have hexponent := isDecimalChar_of_readExponent? hread
      split at hsplit
      · next tail heq =>
        obtain ⟨-, rfl⟩ := Prod.mk.inj hsplit
        rw [heq, ← List.takeWhile_append_dropWhile (p := Char.isDigit) (l := tail)]
        refine List.forall_mem_cons.2 ⟨.inr (by decide), List.forall_mem_append.2 ⟨?_, hexponent⟩⟩
        exact fun c => isDecimalChar_of_takeWhile
      · obtain ⟨-, rfl⟩ := Prod.mk.inj hsplit
        exact hexponent
  rw [← List.takeWhile_append_dropWhile (p := Char.isDigit) (l := text)]
  exact List.forall_mem_append.2 ⟨fun c => isDecimalChar_of_takeWhile, hbehind⟩

end Numeral

namespace Scalar

open Numeral Outcome

variable {text : Text} {c : Char} {token : Token} {offset length : Nat}

def IsLexical (c : Char) : Prop :=
  Text.isBlank c = true ∨ c.isDigit = true ∨ c = '.' ∨ c.isAlpha = true ∨
    (symbolToken? c).isSome = true

instance (c : Char) : Decidable (IsLexical c) := inferInstanceAs (Decidable (_ ∨ _))

theorem isLexical_of_isDecimalChar (hc : IsDecimalChar c) : IsLexical c := by
  have hothers : ∀ c ∈ ".eE+-".toList, IsLexical c := List.all_iff_forall_prop.1 (by decide)
  rcases hc with hc | hc
  · exact .inr (.inl hc)
  · exact hothers c hc

theorem isLexical_of_isAlpha (hc : c.isAlpha = true) : IsLexical c :=
  .inr (.inr (.inr (.inl hc)))

/-- The text of a lexeme, and the character it starts with. -/
theorem isLexical_of_scanToken (hscan : scanToken offset c text = .ok (token, length)) :
    IsLexical c ∧ ∀ d ∈ (c :: text).take length, IsLexical d := by
  rw [scanToken] at hscan
  split at hscan
  · next hc =>
    refine ⟨hc.elim (fun h => .inr (.inl h)) fun h => .inr (.inr (.inl h)), ?_⟩
    rw [scanNumeral] at hscan
    split at hscan
    next mantissa digits hlength =>
    split at hscan
    · cases hscan
    · dsimp only at hscan
      split at hscan
      · next numeral hread =>
        obtain ⟨-, rfl⟩ := Prod.mk.inj (Except.ok.inj hscan)
        have hchars := isDecimalChar_of_readDecimal? (Option.isSome_of_eq_some hread)
        exact fun d hd => isLexical_of_isDecimalChar (hchars d hd)
      · cases hscan
  · split at hscan
    · next hc =>
      dsimp only at hscan
      split at hscan
      · obtain ⟨-, rfl⟩ := Prod.mk.inj (Except.ok.inj hscan)
        refine ⟨isLexical_of_isAlpha hc, fun d hd => ?_⟩
        rw [List.length_cons, List.take_succ_cons,
          ← List.prefix_iff_eq_take.1 (List.takeWhile_prefix Char.isAlpha)] at hd
        rcases List.mem_cons.1 hd with rfl | hd
        · exact isLexical_of_isAlpha hc
        · exact isLexical_of_isAlpha (List.mem_takeWhile_imp hd)
      · cases hscan
    · split at hscan
      · next found hsymbol =>
        obtain ⟨-, rfl⟩ := Prod.mk.inj (Except.ok.inj hscan)
        have hc : IsLexical c := .inr (.inr (.inr (.inr (Option.isSome_of_eq_some hsymbol))))
        exact ⟨hc, by simpa using hc⟩
      · cases hscan

/-- A text that is cut into lexemes is made of lexical characters. -/
theorem isLexical_of_lexemesFrom {lexemes : List Lexeme}
    (hlexemes : lexemesFrom offset text = .ok lexemes) : ∀ c ∈ text, IsLexical c := by
  induction hsize : text.length using Nat.strong_induction_on generalizing text offset lexemes with
  | h size ih =>
    cases text with
    | nil => exact nofun
    | cons c text =>
      rw [List.length_cons] at hsize
      rw [lexemesFrom.eq_def] at hlexemes
      dsimp only at hlexemes
      split at hlexemes
      · next hblank =>
        exact List.forall_mem_cons.2 ⟨.inl hblank, ih text.length (by omega) hlexemes rfl⟩
      · obtain ⟨⟨token, length⟩, hscan, hlexemes⟩ := bind_eq_ok_iff.1 hlexemes
        obtain ⟨others, hothers, -⟩ := bind_eq_ok_iff.1 hlexemes
        obtain ⟨hc, hlexeme⟩ := isLexical_of_scanToken hscan
        have hrest := ih (text.drop (length - 1)).length
          (by rw [List.length_drop]; omega) hothers rfl
        refine List.forall_mem_cons.2 ⟨hc, ?_⟩
        cases length with
        | zero => exact hrest
        | succ length =>
          rw [← List.take_append_drop length text]
          refine List.forall_mem_append.2 ⟨fun d hd => hlexeme d ?_, hrest⟩
          rw [List.take_succ_cons]
          exact List.mem_cons_of_mem c hd

/-- A character that is not lexical makes a text no scalar expression. -/
theorem solve_eq_error (hmem : c ∈ text) (hc : ¬IsLexical c) (limit : Nat) :
    ∃ cause, solve limit text = .error cause := by
  cases hlexemes : lexemes text with
  | ok found => exact absurd (isLexical_of_lexemesFrom hlexemes c hmem) hc
  | error cause =>
    refine ⟨cause, ?_⟩
    rw [solve, evaluate, hlexemes]
    rfl

end Scalar

end MatrixCalculator
