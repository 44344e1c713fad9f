import MatrixCalculator.Proofs.Literal.Shape
import Mathlib.Computability.RegularExpressions

/-!
# The shape of a literal as a pattern

The shape of a literal is a regular expression: its language is that of the grammar, so
the scan, the grammar and the expression agree on every text.  What the separators are
does not matter; they may coincide with each other and with all characters of numerals
and brackets.
-/

namespace MatrixCalculator.Literal

open RegularExpression

variable {separators : Separators} {text : Text} {r : RegularExpression Char} {chars : List Char}

/-! ## Expressions -/

def anyOf (chars : List Char) : RegularExpression Char := (chars.map char).sum

/-- What an expression matches, or nothing. -/
def optional (r : RegularExpression Char) : RegularExpression Char := 1 + r

/-- One match of an expression or more. -/
def repeated (r : RegularExpression Char) : RegularExpression Char := r * r.star

def numeralRun : RegularExpression Char := (anyOf "ABCDEF0123456789".toList).star

def plainField (separators : Separators) : RegularExpression Char :=
  optional (anyOf [Symbol.minus, '-']) * numeralRun *
    optional (char separators.decimalPoint * numeralRun)

def plainRow (separators : Separators) : RegularExpression Char :=
  char '[' * plainField separators * (char separators.matrix * plainField separators).star *
    char ']'

/-- Rows in brackets. -/
def plainLiteral (separators : Separators) : RegularExpression Char :=
  char '[' * repeated (plainRow separators) * char ']'

/-! ## Their languages -/

theorem mem_char {c : Char} : text ∈ (char c).matches' ↔ text = [c] := by
  rw [matches'_char]
  rfl

theorem mem_mul {r' : RegularExpression Char} : text ∈ (r * r').matches' ↔
    ∃ left ∈ r.matches', ∃ right ∈ r'.matches', text = left ++ right := by
  rw [matches'_mul, Language.mem_mul]
  simp only [eq_comm]

theorem mem_char_mul {c : Char} : text ∈ (char c * r).matches' ↔
    ∃ rest ∈ r.matches', text = c :: rest := by
  rw [mem_mul]
  constructor
  · rintro ⟨left, hleft, rest, hrest, rfl⟩
    rw [mem_char.1 hleft]
    exact ⟨rest, hrest, rfl⟩
  · rintro ⟨rest, hrest, rfl⟩
    exact ⟨[c], mem_char.2 rfl, rest, hrest, rfl⟩

theorem mem_anyOf : text ∈ (anyOf chars).matches' ↔ ∃ c ∈ chars, text = [c] := by
  induction chars with
  | nil => simp [anyOf]
  | cons c chars ih =>
    rw [anyOf, List.map_cons, List.sum_cons, matches'_add, Language.mem_add, mem_char, ← anyOf, ih]
    simp

theorem mem_optional : text ∈ (optional r).matches' ↔ text = [] ∨ text ∈ r.matches' := by
  rw [optional, matches'_add, Language.mem_add, matches'_epsilon, Language.mem_one]

theorem mem_star : text ∈ r.star.matches' ↔
    ∃ parts : List Text, (∀ part ∈ parts, part ∈ r.matches') ∧ text = parts.flatten := by
  rw [matches'_star, Language.mem_kstar]
  exact exists_congr fun parts => and_comm

theorem mem_repeated : text ∈ (repeated r).matches' ↔
    ∃ parts : List Text, parts ≠ [] ∧ (∀ part ∈ parts, part ∈ r.matches') ∧
      text = parts.flatten := by
  simp only [repeated, mem_mul, mem_star]
  constructor
  · rintro ⟨first, hfirst, _, ⟨parts, hparts, rfl⟩, rfl⟩
    exact ⟨first :: parts, List.cons_ne_nil _ _, List.forall_mem_cons.2 ⟨hfirst, hparts⟩, rfl⟩
  · rintro ⟨parts, hne, hparts, rfl⟩
    obtain ⟨first, others, rfl⟩ := List.exists_cons_of_ne_nil hne
    obtain ⟨hfirst, hothers⟩ := List.forall_mem_cons.1 hparts
    exact ⟨first, hfirst, others.flatten, ⟨others, hothers, rfl⟩, rfl⟩

/-! ## The parts of the pattern -/

theorem isNumeralChar_iff {c : Char} :
    Base.isNumeralChar c = true ↔ c ∈ "ABCDEF0123456789".toList := by
  constructor
  · intro hc
    simp only [Base.isNumeralChar, Char.isDigit, Bool.or_eq_true, Bool.and_eq_true,
      decide_eq_true_eq] at hc
    rw [← Char.ofNat_toNat c]
    have hrange : 48 ≤ c.toNat ∧ c.toNat ≤ 57 ∨ 65 ≤ c.toNat ∧ c.toNat ≤ 70 := hc
    generalize c.toNat = n at hrange
    rcases hrange with ⟨hlow, hhigh⟩ | ⟨hlow, hhigh⟩
    · interval_cases n <;> decide
    · interval_cases n <;> decide
  · have hall : "ABCDEF0123456789".toList.all Base.isNumeralChar = true := by decide
    exact List.all_eq_true.1 hall c

theorem mem_numeralRun : text ∈ numeralRun.matches' ↔ IsNumeralRun text := by
  rw [numeralRun, mem_star]
  constructor
  · rintro ⟨parts, hparts, rfl⟩ c hc
    obtain ⟨part, hpart, hc⟩ := List.mem_flatten.1 hc
    obtain ⟨d, hd, rfl⟩ := mem_anyOf.1 (hparts part hpart)
    rw [List.mem_singleton.1 hc]
    exact isNumeralChar_iff.2 hd
  · intro hrun
    refine ⟨text.map ([·]), fun part hpart => ?_, by rw [← List.flatMap_def]; simp⟩
    obtain ⟨c, hc, rfl⟩ := List.mem_map.1 hpart
    exact mem_anyOf.2 ⟨c, isNumeralChar_iff.1 (hrun c hc), rfl⟩

theorem mem_plainField :
    text ∈ (plainField separators).matches' ↔ IsPlainField separators text := by
  have hsign : ∀ sign : Text, sign ∈ (optional (anyOf [Symbol.minus, '-'])).matches' ↔
      sign = [] ∨ sign = ['-'] ∨ sign = [Symbol.minus] := by
    intro sign
    rw [mem_optional, mem_anyOf]
    simp [or_comm]
  have hfraction : ∀ fraction : Text,
      fraction ∈ (optional (char separators.decimalPoint * numeralRun)).matches' ↔
        IsPlainFraction separators fraction := by
    intro fraction
    simp only [mem_optional, mem_char_mul, mem_numeralRun, IsPlainFraction]
  simp only [plainField, mem_mul, hsign, hfraction, mem_numeralRun]
  constructor
  · rintro ⟨_, ⟨sign, hsign, whole, hwhole, rfl⟩, fraction, hfraction, rfl⟩
    exact ⟨sign, whole ++ fraction, hsign, ⟨whole, fraction, hwhole, hfraction, rfl⟩,
      List.append_assoc _ _ _⟩
  · rintro ⟨sign, _, hsign, ⟨whole, fraction, hwhole, hfraction, rfl⟩, rfl⟩
    exact ⟨_, ⟨sign, hsign, whole, hwhole, rfl⟩, fraction, hfraction,
      (List.append_assoc _ _ _).symm⟩

/-- Parts behind a first one, each with a mark in front of it, are all the parts with the
mark between them. -/
theorem append_flatten_map (mark first : Text) (others : List Text) :
    first ++ (others.map (mark ++ ·)).flatten = mark.intercalate (first :: others) := by
  induction others generalizing first with
  | nil => simp
  | cons next others ih => rw [List.intercalate_cons_cons, ← ih]; simp

theorem mem_separated : text ∈ (char separators.matrix * plainField separators).star.matches' ↔
    ∃ fields : List Text, (∀ field ∈ fields, IsPlainField separators field) ∧
      text = (fields.map ([separators.matrix] ++ ·)).flatten := by
  rw [mem_star]
  constructor
  · rintro ⟨parts, hparts, rfl⟩
    induction parts with
    | nil => exact ⟨[], nofun, rfl⟩
    | cons part parts ih =>
      obtain ⟨hpart, hothers⟩ := List.forall_mem_cons.1 hparts
      obtain ⟨field, hfield, rfl⟩ := mem_char_mul.1 hpart
      obtain ⟨fields, hfields, htext⟩ := ih hothers
      refine ⟨field :: fields, List.forall_mem_cons.2 ⟨mem_plainField.1 hfield, hfields⟩, ?_⟩
      rw [List.flatten_cons, htext]
      rfl
  · rintro ⟨fields, hfields, rfl⟩
    refine ⟨_, fun part hpart => ?_, rfl⟩
    obtain ⟨field, hfield, rfl⟩ := List.mem_map.1 hpart
    exact mem_char_mul.2 ⟨field, mem_plainField.2 (hfields field hfield), rfl⟩

theorem mem_plainRow : text ∈ (plainRow separators).matches' ↔ IsPlainRow separators text := by
  simp only [plainRow, mem_mul, mem_char, mem_separated, mem_plainField]
  constructor
  · rintro ⟨_, ⟨_, ⟨_, rfl, first, hfirst, rfl⟩, _, ⟨others, hothers, rfl⟩, rfl⟩, _, rfl, rfl⟩
    refine ⟨first :: others, List.cons_ne_nil _ _, List.forall_mem_cons.2 ⟨hfirst, hothers⟩, ?_⟩
    rw [← append_flatten_map, List.append_assoc ['['] first]
  · rintro ⟨fields, hne, hfields, rfl⟩
    obtain ⟨first, others, rfl⟩ := List.exists_cons_of_ne_nil hne
    obtain ⟨hfirst, hothers⟩ := List.forall_mem_cons.1 hfields
    refine ⟨_, ⟨_, ⟨_, rfl, first, hfirst, rfl⟩, _, ⟨others, hothers, rfl⟩, rfl⟩, _, rfl, ?_⟩
    rw [← append_flatten_map, List.append_assoc ['['] first]

/-- What the pattern matches is rows of plain fields in brackets. -/
theorem mem_plainLiteral : text ∈ (plainLiteral separators).matches' ↔
    ∃ rows, rows ≠ [] ∧ (∀ row ∈ rows, IsPlainRow separators row) ∧
      text = ['['] ++ rows.flatten ++ [']'] := by
  simp only [plainLiteral, mem_mul, mem_char, mem_repeated, mem_plainRow]
  constructor
  · rintro ⟨_, ⟨_, rfl, _, ⟨rows, hne, hrows, rfl⟩, rfl⟩, _, rfl, rfl⟩
    exact ⟨rows, hne, hrows, rfl⟩
  · rintro ⟨rows, hne, hrows, rfl⟩
    exact ⟨_, ⟨_, rfl, _, ⟨rows, hne, hrows, rfl⟩, rfl⟩, _, rfl, rfl⟩

/-- The scan finds the shape of a literal exactly where some part of a text is rows of
plain fields in brackets, which is what the pattern matches. -/
theorem occursIn_tfae (separators : Separators) (text : Text) :
    [occursIn separators text = true,
      ∃ part, part <:+: text ∧ ∃ rows, rows ≠ [] ∧ (∀ row ∈ rows, IsPlainRow separators row) ∧
        part = ['['] ++ rows.flatten ++ [']'],
      ∃ part, part <:+: text ∧ part ∈ (plainLiteral separators).matches'].TFAE := by
  tfae_have 1 ↔ 2 := by
    rw [occursIn_iff]
    constructor
    · rintro ⟨before, rows, after, hne, hrows, rfl⟩
      exact ⟨_, ⟨before, after, rfl⟩, rows, hne, hrows, rfl⟩
    · rintro ⟨_, ⟨before, after, rfl⟩, rows, hne, hrows, rfl⟩
      exact ⟨before, rows, after, hne, hrows, rfl⟩
  tfae_have 2 ↔ 3 := exists_congr fun part => and_congr_right fun _ => mem_plainLiteral.symm
  tfae_finish

end MatrixCalculator.Literal
