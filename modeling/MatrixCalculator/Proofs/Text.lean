import MatrixCalculator.Text.Basic
import Mathlib.Data.Bool.AllAny
import Mathlib.Tactic

/-!
# Characters and what precedes them

The passes over an expression look at a character and the one in front of it, or
search for a fixed piece of text.  What they find in a text that is put together
from parts follows from the parts and from where one part meets the next.
-/

namespace MatrixCalculator.Text

variable {allowed : Option Char → Char → Prop} {previous : Option Char}
  {text left right mark part before rest : Text}

/-! ## Neighbouring characters -/

/-- Whether every character of a text is allowed behind the one in front of it. -/
def Follows (allowed : Option Char → Char → Prop) : (previous : Option Char) → Text → Prop
  | _, [] => True
  | previous, c :: text => allowed previous c ∧ Follows allowed (some c) text

instance Follows.decidable [∀ previous c, Decidable (allowed previous c)] :
    (previous : Option Char) → (text : Text) → Decidable (Follows allowed previous text)
  | _, [] => isTrue trivial
  | previous, c :: text =>
    have := Follows.decidable (some c) text
    inferInstanceAs (Decidable (allowed previous c ∧ Follows allowed (some c) text))

/-- What is allowed anywhere holds for every character. -/
theorem Follows.forall_mem {p : Char → Prop} (hfollows : Follows allowed previous text)
    (hall : ∀ before c, allowed before c → p c) : ∀ c ∈ text, p c := by
  induction text generalizing previous with
  | nil => exact nofun
  | cons c text ih =>
    exact List.forall_mem_cons.2 ⟨hall previous c hfollows.1, ih hfollows.2⟩

/-- The last character in front of what follows a text. -/
def ending (previous : Option Char) (text : Text) : Option Char :=
  text.foldl (fun _ c => some c) previous

theorem ending_append :
    ending previous (left ++ right) = ending (ending previous left) right := by
  rw [ending, List.foldl_append]
  rfl

theorem ending_concat {c : Char} : ending previous (text ++ [c]) = some c := by
  rw [ending_append]
  rfl

/-- Behind a text there is one of its characters. -/
theorem ending_none (text : Text) : ending none text = text.getLast? := by
  induction text using List.reverseRecOn with
  | nil => rfl
  | append_singleton text c _ => rw [ending_concat, List.getLast?_concat]

theorem exists_ending (hne : text ≠ []) : ∃ c ∈ text, ending previous text = some c := by
  refine ⟨text.getLast hne, List.getLast_mem hne, ?_⟩
  conv_lhs => rw [← List.dropLast_append_getLast hne]
  exact ending_concat

theorem follows_append : Follows allowed previous (left ++ right) ↔
    Follows allowed previous left ∧ Follows allowed (ending previous left) right := by
  induction left generalizing previous with
  | nil => simp [Follows, ending]
  | cons c left ih => simp only [List.cons_append, Follows, ih, and_assoc]; rfl

theorem follows_of_forall (hall : ∀ before, ∀ c ∈ text, allowed before c) :
    Follows allowed previous text := by
  induction text generalizing previous with
  | nil => trivial
  | cons c text ih =>
    exact ⟨hall previous c (by simp), ih fun before d hd => hall before d (by simp [hd])⟩

/-- Whether a text is allowed behind every character. -/
def Fits (allowed : Option Char → Char → Prop) (text : Text) : Prop :=
  ∀ previous, Follows allowed previous text

theorem fits_nil : Fits allowed [] := fun _ => trivial

theorem Fits.append (hleft : Fits allowed left) (hright : Fits allowed right) :
    Fits allowed (left ++ right) :=
  fun previous => follows_append.2 ⟨hleft previous, hright _⟩

theorem fits_of_forall (hall : ∀ before, ∀ c ∈ text, allowed before c) : Fits allowed text :=
  fun _ => follows_of_forall hall

theorem fits_flatMap {α : Type} {parts : List α} {write : α → Text}
    (hparts : ∀ part ∈ parts, Fits allowed (write part)) :
    Fits allowed (parts.flatMap write) := by
  induction parts with
  | nil => exact fits_nil
  | cons part parts ih =>
    rw [List.flatMap_cons]
    exact (hparts part (by simp)).append (ih fun other hother => hparts other (by simp [hother]))

/-! ## Bytes -/

theorem byteLength_append (left right : Text) :
    byteLength (left ++ right) = byteLength left + byteLength right := by
  induction left with
  | nil => simp [byteLength]
  | cons c left ih => rw [List.cons_append, byteLength, byteLength, ih, Nat.add_assoc]

/-! ## Runs -/

section Runs

variable {p : Char → Bool}

theorem takeWhile_run (hleft : ∀ c ∈ left, p c = true)
    (hright : ∀ c, right.head? = some c → p c = false) : (left ++ right).takeWhile p = left := by
  rw [List.takeWhile_append_of_pos hleft]
  cases right with
  | nil => simp
  | cons c right => simp [hright c rfl]

theorem dropWhile_run (hleft : ∀ c ∈ left, p c = true)
    (hright : ∀ c, right.head? = some c → p c = false) : (left ++ right).dropWhile p = right := by
  have hsplit := List.takeWhile_append_dropWhile (p := p) (l := left ++ right)
  rw [takeWhile_run hleft hright] at hsplit
  exact List.append_cancel_left hsplit

theorem drop_length_takeWhile {α : Type} (p : α → Bool) (list : List α) :
    list.drop (list.takeWhile p).length = list.dropWhile p := by
  have hdrop : (list.takeWhile p ++ list.dropWhile p).drop (list.takeWhile p).length =
      list.dropWhile p := List.drop_left
  rwa [List.takeWhile_append_dropWhile] at hdrop

theorem head?_dropWhile (text : Text) : ∀ c, (text.dropWhile p).head? = some c → p c = false := by
  intro c hc
  have hhead := List.head?_dropWhile_not p text
  rw [hc] at hhead
  exact hhead

end Runs

/-! ## Searching -/

theorem after?_eq_none_of_ne {c d : Char} (hne : c ≠ d) :
    after? (c :: mark) (d :: text) = none := by
  rw [after?, if_neg hne]

theorem cut?_cons {c : Char} (hnone : after? mark (c :: text) = none) :
    cut? mark (c :: text) = (cut? mark text).map fun (before, rest) => (c :: before, rest) := by
  rw [cut?, hnone]

/-- No occurrence of a mark starts in a text without its first character. -/
theorem cut?_append {c : Char} (hleft : c ∉ left) :
    cut? (c :: mark) (left ++ right) =
      (cut? (c :: mark) right).map fun (before, rest) => (left ++ before, rest) := by
  induction left with
  | nil => simp
  | cons d left ih =>
    obtain ⟨hne, hleft⟩ := not_or.1 (List.mem_cons.not.1 hleft)
    rw [List.cons_append, cut?_cons (after?_eq_none_of_ne hne), ih hleft, Option.map_map]
    rfl

theorem cut?_mark (hmark : mark ≠ []) : cut? mark (mark ++ rest) = some ([], rest) := by
  obtain ⟨c, tail, rfl⟩ := List.exists_cons_of_ne_nil hmark
  have hafter : after? (c :: tail) (c :: (tail ++ rest)) = some rest := after?_eq_some_iff.2 rfl
  rw [List.cons_append, cut?, hafter]

/-- A text without some character of a mark has no occurrence of it. -/
theorem cut?_eq_none {c : Char} (hmark : c ∈ mark) (htext : c ∉ text) : cut? mark text = none := by
  cases hcut : cut? mark text with
  | none => rfl
  | some parts =>
    have htext' := eq_append_of_cut? hcut
    exact absurd (by simp [htext', hmark]) htext

theorem isSome_cut? (left : Text) : (cut? mark (left ++ mark ++ right)).isSome = true := by
  induction left with
  | nil =>
    by_cases hmark : mark = []
    · subst hmark
      cases right <;> rfl
    · rw [List.nil_append, cut?_mark hmark]
      rfl
  | cons c left ih =>
    rw [List.cons_append, List.cons_append, cut?]
    split
    · rfl
    · rwa [Option.isSome_map]

/-- Whether a mark occurs does not depend on how it is found. -/
theorem contains_iff : contains mark text = true ↔ mark <:+: text := by
  rw [contains]
  constructor
  · intro hsome
    obtain ⟨⟨before, rest⟩, hcut⟩ := Option.isSome_iff_exists.1 hsome
    exact ⟨before, rest, (eq_append_of_cut? hcut).symm⟩
  · rintro ⟨before, rest, rfl⟩
    exact isSome_cut? before

/-- No occurrence of a mark begins in front of the one that is found. -/
theorem length_le_of_cut? (hcut : cut? mark text = some (before, rest))
    (htext : text = left ++ mark ++ right) : before.length ≤ left.length := by
  induction text generalizing before left with
  | nil =>
    rw [cut?] at hcut
    split at hcut
    · cases hcut
      exact Nat.zero_le _
    · cases hcut
  | cons c text ih =>
    rw [cut?] at hcut
    split at hcut
    · cases hcut
      exact Nat.zero_le _
    · next hnone =>
      obtain ⟨⟨inner, tail⟩, hinner, heq⟩ := Option.map_eq_some_iff.1 hcut
      cases heq
      cases left with
      | nil =>
        rw [after?_eq_some_iff.2 (by simpa using htext)] at hnone
        cases hnone
      | cons d left =>
        obtain ⟨-, htext⟩ := List.cons.inj htext
        exact Nat.succ_le_succ (ih hinner htext)

/-- A mark is found where no occurrence of it begins earlier: an earlier one would end in
front of the last character of the mark. -/
theorem cut?_eq_some_iff (hmark : mark ≠ []) : cut? mark text = some (before, rest) ↔
    text = before ++ mark ++ rest ∧ ¬mark <:+: before ++ mark.dropLast := by
  have hlast := List.dropLast_append_getLast hmark
  have hlength := List.length_pos_iff.2 hmark
  constructor
  · intro hcut
    refine ⟨eq_append_of_cut? hcut, ?_⟩
    rintro ⟨left, right, hjoined⟩
    have hwhole : before ++ mark = left ++ mark ++ right ++ [mark.getLast hmark] := by
      rw [hjoined, List.append_assoc, hlast]
    have htext : text = left ++ mark ++ (right ++ [mark.getLast hmark] ++ rest) := by
      rw [eq_append_of_cut? hcut, hwhole]
      simp only [List.append_assoc]
    have hfirst := length_le_of_cut? hcut htext
    have hlengths := congrArg List.length hjoined
    simp only [List.length_append, List.length_dropLast] at hlengths
    omega
  · rintro ⟨rfl, hnone⟩
    have hsome : (cut? mark (before ++ mark ++ rest)).isSome = true := isSome_cut? before
    obtain ⟨⟨found, tail⟩, hfound⟩ := Option.isSome_iff_exists.1 hsome
    have hjoined := eq_append_of_cut? hfound
    have hle : found.length ≤ before.length := length_le_of_cut? hfound rfl
    rcases hle.lt_or_eq with hlt | heq
    · refine absurd ?_ hnone
      have hfirst : found ++ mark <+: before ++ mark ++ rest := by
        rw [hjoined]
        exact List.prefix_append _ _
      have hwhole : found ++ mark <+: before ++ mark.dropLast := by
        refine List.prefix_of_prefix_length_le hfirst ⟨[mark.getLast hmark] ++ rest, ?_⟩ ?_
        · rw [← List.append_assoc, List.append_assoc before, hlast]
        · simp only [List.length_append, List.length_dropLast]
          omega
      exact (List.suffix_append _ _).isInfix.trans hwhole.isInfix
    · rw [List.append_assoc, List.append_assoc] at hjoined
      obtain ⟨rfl, hbehind⟩ := List.append_inj hjoined heq.symm
      rw [hfound, List.append_cancel_left hbehind]

theorem not_isInfix_of_cut? (hmark : mark ≠ []) (hcut : cut? mark text = some (before, rest)) :
    ¬mark <:+: before := by
  obtain ⟨-, hnone⟩ := (cut?_eq_some_iff hmark).1 hcut
  exact fun hwithin => hnone (hwithin.trans (List.prefix_append _ _).isInfix)

/-- A mark is found at the same place, whatever follows it. -/
theorem cut?_of_cut? (hcut : cut? mark text = some (before, rest)) (other : Text) :
    cut? mark (before ++ mark ++ other) = some (before, other) := by
  by_cases hmark : mark = []
  · subst hmark
    have hempty : ∀ text : Text, cut? [] text = some ([], text) := by
      intro text
      cases text <;> rfl
    rw [hempty] at hcut
    cases hcut
    exact hempty other
  · exact (cut?_eq_some_iff hmark).2 ⟨rfl, ((cut?_eq_some_iff hmark).1 hcut).2⟩

/-! ## Splitting -/

theorem intercalate_map_cons {α : Type} (mark : Text) (write : α → Text) (first next : α)
    (others : List α) :
    mark.intercalate ((first :: next :: others).map write) =
      write first ++ (mark ++ mark.intercalate ((next :: others).map write)) := by
  rw [List.map_cons, List.map_cons, List.intercalate_cons_cons, ← List.map_cons, List.append_assoc]

/-- A part is in the text that joins the parts. -/
theorem isInfix_intercalate_map {α : Type} {write : α → Text} {part : α} {parts : List α}
    (hpart : part ∈ parts) : write part <:+: mark.intercalate (parts.map write) := by
  induction parts with
  | nil => cases hpart
  | cons first parts ih =>
    cases parts with
    | nil =>
      obtain rfl : part = first := by simpa using hpart
      simp
    | cons next parts =>
      rw [intercalate_map_cons]
      rcases List.mem_cons.1 hpart with rfl | hpart
      · exact (List.prefix_append _ _).isInfix
      · exact (ih hpart).trans ⟨write first ++ mark, [], by simp⟩

/-- What is done to a text character by character is done to joined parts one by one. -/
theorem intercalate_of_append {f : Text → Text} (hnil : f [] = [])
    (happend : ∀ left right, f (left ++ right) = f left ++ f right) (mark : Text)
    (parts : List Text) : f (mark.intercalate parts) = (f mark).intercalate (parts.map f) := by
  induction parts with
  | nil => exact hnil
  | cons part parts ih =>
    cases parts with
    | nil => simp
    | cons next parts =>
      rw [List.intercalate_cons_cons, happend, happend, ih]
      exact List.intercalate_cons_cons.symm

theorem splitOn_ne_nil (mark text : Text) : splitOn mark text ≠ [] := by
  rw [splitOn]
  split
  · simp
  · rw [pieces]
    split <;> exact List.cons_ne_nil _ _

theorem isInfix_of_mem_splitOn (hmark : mark ≠ []) (hpart : part ∈ splitOn mark text) :
    part <:+: text := by
  rw [splitOn, dif_neg hmark] at hpart
  fun_induction pieces mark hmark text with
  | case1 text hcut =>
    rw [List.mem_singleton.1 hpart]
  | case2 text before rest hcut _ ih =>
    rw [eq_append_of_cut? hcut]
    rcases List.mem_cons.1 hpart with rfl | hpart
    · exact ⟨[], mark ++ rest, by simp⟩
    · exact (ih hpart).trans (List.suffix_append _ _).isInfix

theorem splitOn_eq_singleton {c : Char} (htext : c ∉ text) : splitOn (c :: mark) text = [text] := by
  rw [splitOn, dif_neg (List.cons_ne_nil c mark), pieces]
  split
  · rfl
  · next hcut =>
    rw [cut?_eq_none (List.mem_cons_self ..) htext] at hcut
    cases hcut

theorem splitOn_append {c : Char} (hleft : c ∉ left) :
    splitOn (c :: mark) (left ++ (c :: mark) ++ right) = left :: splitOn (c :: mark) right := by
  have hmark := List.cons_ne_nil c mark
  rw [splitOn, dif_neg hmark, splitOn, dif_neg hmark, pieces]
  have hfound : cut? (c :: mark) (left ++ (c :: mark) ++ right) = some (left, right) := by
    rw [List.append_assoc, cut?_append hleft, cut?_mark hmark]
    simp
  split
  · next hcut =>
    rw [hfound] at hcut
    cases hcut
  · next hcut =>
    rw [hfound] at hcut
    cases hcut
    rfl

/-- Parts with a mark between them are found again where no part has the first
character of the mark. -/
theorem splitOn_intercalate {c : Char} {parts : List Text} (hne : parts ≠ [])
    (hparts : ∀ part ∈ parts, c ∉ part) :
    splitOn (c :: mark) ((c :: mark).intercalate parts) = parts := by
  induction parts with
  | nil => exact absurd rfl hne
  | cons part parts ih =>
    cases parts with
    | nil => simpa using splitOn_eq_singleton (hparts part (by simp))
    | cons next parts =>
      have hrest := ih (by simp) fun other hother => hparts other (by simp [hother])
      rw [List.intercalate_cons_cons, splitOn_append (hparts part (by simp)), hrest]

/-- The pieces of a text between a mark that does not overlap with itself are the only
parts without the mark that give the text when they are joined by it. -/
theorem splitOn_eq_iff {parts : List Text} (hmark : mark ≠ [])
    (hself : ∀ part, mark <:+: part ++ mark.dropLast → mark <:+: part) :
    splitOn mark text = parts ↔
      parts ≠ [] ∧ (∀ part ∈ parts, ¬mark <:+: part) ∧ text = mark.intercalate parts := by
  rw [splitOn, dif_neg hmark]
  constructor
  · rintro rfl
    fun_induction pieces mark hmark text with
    | case1 text hcut =>
      have hnone : ¬mark <:+: text := fun hwithin => by
        simpa [contains, hcut] using contains_iff.2 hwithin
      simpa using hnone
    | case2 text before rest hcut _ ih =>
      obtain ⟨hne, hparts, htext⟩ := ih
      refine ⟨List.cons_ne_nil _ _,
        List.forall_mem_cons.2 ⟨not_isInfix_of_cut? hmark hcut, hparts⟩, ?_⟩
      obtain ⟨next, others, hnext⟩ := List.exists_cons_of_ne_nil hne
      rw [hnext] at htext ⊢
      rw [List.intercalate_cons_cons, ← htext]
      exact eq_append_of_cut? hcut
  · rintro ⟨hne, hparts, rfl⟩
    induction parts with
    | nil => exact absurd rfl hne
    | cons part parts ih =>
      obtain ⟨hpart, hparts⟩ := List.forall_mem_cons.1 hparts
      cases parts with
      | nil =>
        rw [List.intercalate_singleton, pieces]
        split
        · rfl
        · next hcut => exact absurd (contains_iff.1 (by simp [contains, hcut])) hpart
      | cons next parts =>
        have hfound : cut? mark (part ++ mark ++ mark.intercalate (next :: parts)) =
            some (part, mark.intercalate (next :: parts)) :=
          (cut?_eq_some_iff hmark).2 ⟨rfl, fun hwithin => hpart (hself part hwithin)⟩
        rw [List.intercalate_cons_cons, pieces]
        split
        · next hcut =>
          rw [hfound] at hcut
          cases hcut
        · next hcut =>
          rw [hfound] at hcut
          cases hcut
          rw [ih (List.cons_ne_nil _ _) hparts]

end MatrixCalculator.Text
