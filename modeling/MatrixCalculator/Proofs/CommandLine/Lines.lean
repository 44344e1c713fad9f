import MatrixCalculator.CommandLine
import Mathlib.Data.List.Basic
import Mathlib.Tactic.Common

/-!
# Lines of an input

An input is cut behind its line feeds, and there is one way only to do so: nothing is
lost, no line has a line feed inside, and only the last one may lack it at its end.
-/

namespace MatrixCalculator.CommandLine

/-- A line of an input: its bytes, and whether a line feed ends it. -/
abbrev Line := List UInt8 × Bool

namespace Line

/-- The part of an input that is the line. -/
def part (line : Line) : List UInt8 := if line.2 then line.1 ++ [10] else line.1

def text? (line : Line) : Option Text := decodeLine line.1 line.2

end Line

def encode (text : Text) : List UInt8 := text.flatMap String.utf8EncodeChar

/-- Whether a line holds a text.  A carriage return right in front of the line feed
belongs to the end of the line, and at the end of the input it belongs to the text. -/
inductive Line.Holds : Line → Text → Prop
  | openEnd (text : Text) : Holds (encode text, false) text
  | feed (text : Text) (hreturn : (encode text).getLast? ≠ some 13) : Holds (encode text, true) text
  | returnFeed (text : Text) : Holds (encode text ++ [13], true) text

/-- Lines as an input has them: a line feed ends each of them, but for a last one that is
not empty. -/
inductive AreLines : List Line → Prop
  | nil : AreLines []
  | last (bytes : List UInt8) (hfeed : 10 ∉ bytes) (hbytes : bytes ≠ []) :
    AreLines [(bytes, false)]
  | cons (bytes : List UInt8) (lines : List Line) (hfeed : 10 ∉ bytes) (hlines : AreLines lines) :
    AreLines ((bytes, true) :: lines)

theorem areLines_splitLines (input : List UInt8) : AreLines (splitLines input) := by
  induction input with
  | nil => exact .nil
  | cons byte input ih =>
    rw [splitLines]
    split
    · exact .cons [] _ List.not_mem_nil ih
    · next hbyte =>
      have hcons : ∀ bytes : List UInt8, 10 ∉ bytes → 10 ∉ byte :: bytes := fun bytes hfeed hmem =>
        (List.mem_cons.1 hmem).elim (fun heq => hbyte heq.symm) hfeed
      split
      · exact .last _ (hcons _ List.not_mem_nil) (List.cons_ne_nil _ _)
      · next first ended rest hrest =>
        rw [hrest] at ih
        cases ih with
        | last bytes hfeed hbytes => exact .last _ (hcons _ hfeed) (List.cons_ne_nil _ _)
        | cons bytes lines hfeed hlines => exact .cons _ _ (hcons _ hfeed) hlines

theorem flatMap_splitLines (input : List UInt8) : (splitLines input).flatMap Line.part = input := by
  induction input with
  | nil => rfl
  | cons byte input ih =>
    rw [splitLines]
    split
    · next hbyte => rw [List.flatMap_cons, ih, hbyte]; rfl
    · split
      · next hrest =>
        rw [hrest] at ih
        rw [← ih]
        rfl
      · next first ended rest hrest =>
        rw [hrest] at ih
        rw [← ih, List.flatMap_cons, List.flatMap_cons, ← List.cons_append]
        cases ended <;> rfl

theorem splitLines_of_not_mem {bytes : List UInt8} (hfeed : 10 ∉ bytes) (hbytes : bytes ≠ []) :
    splitLines bytes = [(bytes, false)] := by
  induction bytes with
  | nil => exact absurd rfl hbytes
  | cons byte bytes ih =>
    rw [List.mem_cons, not_or] at hfeed
    rw [splitLines, if_neg (Ne.symm hfeed.1)]
    cases bytes with
    | nil => rfl
    | cons next bytes => rw [ih hfeed.2 (List.cons_ne_nil _ _)]

theorem splitLines_append_feed {bytes : List UInt8} (hfeed : 10 ∉ bytes) (input : List UInt8) :
    splitLines (bytes ++ 10 :: input) = (bytes, true) :: splitLines input := by
  induction bytes with
  | nil => rfl
  | cons byte bytes ih =>
    rw [List.mem_cons, not_or] at hfeed
    rw [List.cons_append, splitLines, if_neg (Ne.symm hfeed.1), ih hfeed.2]

/-- The lines of an input are the only ones it is made of. -/
theorem splitLines_eq_iff {input : List UInt8} {lines : List Line} :
    splitLines input = lines ↔ AreLines lines ∧ lines.flatMap Line.part = input := by
  constructor
  · rintro rfl
    exact ⟨areLines_splitLines input, flatMap_splitLines input⟩
  · rintro ⟨hlines, rfl⟩
    induction hlines with
    | nil => rfl
    | last bytes hfeed hbytes =>
      rw [List.flatMap_singleton]
      exact splitLines_of_not_mem hfeed hbytes
    | cons bytes lines hfeed hlines ih =>
      rw [List.flatMap_cons, Line.part, if_pos rfl, List.append_assoc, List.singleton_append,
        splitLines_append_feed hfeed, ih]

theorem areLines_of_mem {lines : List Line} {first : Line} (hlines : AreLines lines)
    (hfirst : first ∈ lines) : AreLines [first] := by
  induction hlines with
  | nil => cases hfirst
  | last bytes hfeed hbytes =>
    rw [List.mem_singleton.1 hfirst]
    exact .last bytes hfeed hbytes
  | cons bytes lines hfeed hlines ih =>
    rcases List.mem_cons.1 hfirst with rfl | hfirst
    · exact .cons bytes [] hfeed .nil
    · exact ih hfirst

/-! ## Texts of lines -/

theorem fromUTF8?_eq_some_iff {bytes : ByteArray} {s : String} :
    String.fromUTF8? bytes = some s ↔ s.toByteArray = bytes := by
  rw [String.fromUTF8?]
  constructor
  · intro hdecode
    split at hdecode
    · cases hdecode
      rfl
    · cases hdecode
  · rintro rfl
    rw [dif_pos s.isValidUTF8]
    rfl

theorem decode_eq_some_iff {bytes : List UInt8} {text : Text} :
    (String.fromUTF8? ⟨bytes.toArray⟩).map String.toList = some text ↔ encode text = bytes := by
  have hbytes : (String.ofList text).toByteArray = ⟨(encode text).toArray⟩ := by
    rw [String.toByteArray_ofList, ByteArray.ext_iff]
    exact List.data_toByteArray
  rw [Option.map_eq_some_iff]
  constructor
  · rintro ⟨s, hs, rfl⟩
    rw [fromUTF8?_eq_some_iff] at hs
    rw [String.ofList_toList, hs] at hbytes
    simpa using hbytes.symm
  · rintro rfl
    exact ⟨String.ofList text, fromUTF8?_eq_some_iff.2 hbytes, String.toList_ofList⟩

/-- Decoding finds the text that a line holds. -/
theorem text?_eq_some_iff {first : Line} {text : Text} :
    first.text? = some text ↔ first.Holds text := by
  obtain ⟨bytes, ended⟩ := first
  rw [Line.text?, decodeLine]
  dsimp only
  rw [decode_eq_some_iff]
  constructor
  · intro hencode
    split at hencode
    · next hreturn =>
      obtain ⟨rfl, hlast⟩ := hreturn
      have hbytes : encode text ++ [13] = bytes := by
        rw [hencode]
        exact List.dropLast_append_getLast? 13 hlast
      rw [← hbytes]
      exact .returnFeed text
    · next hreturn =>
      cases ended with
      | false => rw [← hencode]; exact .openEnd text
      | true =>
        rw [← hencode] at hreturn ⊢
        exact .feed text fun hlast => hreturn ⟨rfl, hlast⟩
  · intro hholds
    cases hholds with
    | openEnd => rw [if_neg (by simp)]
    | feed _ hreturn => rw [if_neg fun h => hreturn h.2]
    | returnFeed => rw [if_pos ⟨rfl, List.getLast?_concat⟩, List.dropLast_concat]

/-- A line of an input is the only line of its part. -/
theorem splitLines_part {input : List UInt8} {first : Line} (hfirst : first ∈ splitLines input) :
    splitLines first.part = [first] :=
  splitLines_eq_iff.2
    ⟨areLines_of_mem (areLines_splitLines input) hfirst, List.flatMap_singleton _ _⟩

end MatrixCalculator.CommandLine
