/-!
# Cutting text

Every pass of the calculator looks for a fixed piece of text: a bracket pair,
an operator word, a marker after a literal.  The functions below find such a
piece and hand back what stands around it, and their lemmas say that nothing
is lost: the parts, put together again, are the text that was cut.
-/

namespace MatrixCalculator

/-- Text as the sequence of its characters. -/
abbrev Text := List Char

namespace Text

/-- Length in the bytes of the UTF-8 form, the unit of offsets. -/
def byteLength : Text → Nat
  | [] => 0
  | c :: text => c.utf8Size + byteLength text

/-- What follows `lead`, if the text starts with it. -/
def after? : (lead text : Text) → Option Text
  | [], text => some text
  | _ :: _, [] => none
  | a :: lead, c :: text => if a = c then after? lead text else none

theorem after?_eq_some_iff {lead text rest : Text} :
    after? lead text = some rest ↔ text = lead ++ rest := by
  fun_induction after? lead text <;> simp_all [eq_comm]

def startsWith (lead text : Text) : Bool := (after? lead text).isSome

/-- What precedes `tail`, if the text ends with it. -/
def before? (tail text : Text) : Option Text :=
  (after? tail.reverse text.reverse).map List.reverse

theorem before?_eq_some_iff {tail text rest : Text} :
    before? tail text = some rest ↔ text = rest ++ tail := by
  simp only [before?, Option.map_eq_some_iff, after?_eq_some_iff]
  constructor
  · rintro ⟨reversed, heq, rfl⟩
    simpa using congrArg List.reverse heq
  · rintro rfl
    exact ⟨rest.reverse, by simp, by simp⟩

/-- The text before and after the first occurrence of `mark`. -/
def cut? (mark : Text) : Text → Option (Text × Text)
  | [] => if mark = [] then some ([], []) else none
  | c :: text =>
    match after? mark (c :: text) with
    | some rest => some ([], rest)
    | none => (cut? mark text).map fun (before, rest) => (c :: before, rest)

theorem eq_append_of_cut? {mark text before rest : Text}
    (hcut : cut? mark text = some (before, rest)) : text = before ++ mark ++ rest := by
  induction text generalizing before with
  | nil => simp_all [cut?]
  | cons c text ih =>
    unfold cut? at hcut
    split at hcut
    · next heq =>
      cases hcut
      simpa using after?_eq_some_iff.1 heq
    · obtain ⟨⟨inner, tail⟩, hinner, heq⟩ := Option.map_eq_some_iff.1 hcut
      cases heq
      simp [ih hinner]

theorem length_lt_of_cut? {mark text before rest : Text} (hmark : mark ≠ [])
    (hcut : cut? mark text = some (before, rest)) : rest.length < text.length := by
  have hpos := List.length_pos_iff.2 hmark
  simp only [eq_append_of_cut? hcut, List.length_append]
  omega

def contains (mark text : Text) : Bool := (cut? mark text).isSome

/-- The text before the last occurrence of `mark`, and what follows it. -/
def cutLast? (mark text : Text) : Option (Text × Text) :=
  (cut? mark.reverse text.reverse).map fun (after, before) => (before.reverse, after.reverse)

/-- The pieces between the occurrences of a mark that is not empty, which are
taken from the left and do not overlap. -/
def pieces (mark : Text) (hmark : mark ≠ []) (text : Text) : List Text :=
  match hcut : cut? mark text with
  | none => [text]
  | some (before, rest) =>
    have : rest.length < text.length := length_lt_of_cut? hmark hcut
    before :: pieces mark hmark rest
termination_by text.length

/-- The pieces between the occurrences of `mark`, empty ones included.  The
empty mark stands around every character. -/
def splitOn (mark text : Text) : List Text :=
  if hmark : mark = [] then [[]] ++ text.map ([·]) ++ [[]]
  else pieces mark hmark text

theorem length_dropWhile_le (p : Char → Bool) (text : Text) :
    (text.dropWhile p).length ≤ text.length :=
  (List.dropWhile_suffix p).length_le

end Text

end MatrixCalculator
