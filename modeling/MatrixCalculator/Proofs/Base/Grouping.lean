import MatrixCalculator.Base.Grouping
import MatrixCalculator.Proofs.Text

/-!
# Grouping marks

Marks are put between digits and nothing else is changed.  So a text in groups is the
text itself as soon as its marks are dropped, whatever the characters around the digits
are.
-/

namespace MatrixCalculator.Base

variable {length : Nat} {mark c : Char} {text left right : Text}

theorem filter_mark_cons (mark : Char) (text : Text) :
    (mark :: text).filter (· != mark) = text.filter (· != mark) :=
  List.filter_cons_of_neg (by simp)

theorem filter_mark_cons_of_ne (hne : mark ≠ c) (text : Text) :
    (c :: text).filter (· != mark) = c :: text.filter (· != mark) :=
  List.filter_cons_of_pos (by simpa using hne.symm)

/-- A text without marks has none to drop. -/
theorem filter_mark_eq_self (hmark : mark ∉ text) : text.filter (· != mark) = text := by
  refine List.filter_eq_self.2 fun c hc => bne_iff_ne.2 ?_
  rintro rfl
  exact hmark hc

/-- A run goes on behind a digit with a mark where whole groups remain. -/
theorem groupRun_cons (digit : Char) (htext : text ≠ []) :
    groupRun length mark (digit :: text) =
      digit :: ((if length ∣ text.length then [mark] else []) ++ groupRun length mark text) := by
  obtain ⟨next, rest, rfl⟩ := List.exists_cons_of_ne_nil htext
  rw [groupRun]
  simp only [List.length_cons, Nat.dvd_iff_mod_eq_zero]
  split <;> rfl

theorem filter_groupRun (hmark : mark ∉ text) :
    (groupRun length mark text).filter (· != mark) = text := by
  induction text using groupRun.induct length with
  | case1 => rfl
  | case2 digit => exact filter_mark_eq_self hmark
  | case3 digit next rest hgroup ih =>
    obtain ⟨hdigit, hrest⟩ := not_or.1 (List.mem_cons.not.1 hmark)
    rw [groupRun, if_pos hgroup, filter_mark_cons_of_ne hdigit, filter_mark_cons, ih hrest]
  | case4 digit next rest hgroup ih =>
    obtain ⟨hdigit, hrest⟩ := not_or.1 (List.mem_cons.not.1 hmark)
    rw [groupRun, if_neg hgroup, filter_mark_cons_of_ne hdigit, ih hrest]

/-- Without its marks a text in groups is what it was. -/
theorem filter_groupNumerals (hmark : mark ∉ text) :
    (groupNumerals length mark text).filter (· != mark) = text := by
  induction text using groupNumerals.induct with
  | case1 => rw [groupNumerals, List.filter_nil]
  | case2 c text hc ih =>
    have hsplit : c :: text = (c :: text.takeWhile isNumeralChar) ++
        text.dropWhile isNumeralChar := by
      rw [List.cons_append, List.takeWhile_append_dropWhile]
    rw [hsplit, List.mem_append, not_or] at hmark
    rw [groupNumerals, if_pos hc, List.filter_append, filter_groupRun hmark.1, ih hmark.2, ← hsplit]
  | case3 c text hc hungrouped ih =>
    have hsplit : c :: text = (c :: text.takeWhile isUngrouped) ++ text.dropWhile isUngrouped := by
      rw [List.cons_append, List.takeWhile_append_dropWhile]
    rw [hsplit, List.mem_append, not_or] at hmark
    rw [groupNumerals, if_neg hc, if_pos hungrouped, List.filter_append,
      filter_mark_eq_self hmark.1, ih hmark.2, ← hsplit]
  | case4 c text hc hungrouped ih =>
    obtain ⟨hne, hrest⟩ := not_or.1 (List.mem_cons.not.1 hmark)
    rw [groupNumerals, if_neg hc, if_neg hungrouped, filter_mark_cons_of_ne hne, ih hrest]

/-- A text in groups is made of its own characters and marks. -/
theorem eq_or_mem_of_mem_groupNumerals (hmark : mark ∉ text)
    (hmem : c ∈ groupNumerals length mark text) : c = mark ∨ c ∈ text := by
  by_cases hc : c = mark
  · exact .inl hc
  · right
    have hfilter : (groupNumerals length mark text).filter (· != mark) = text :=
      filter_groupNumerals hmark
    rw [← hfilter]
    exact List.mem_filter.2 ⟨hmem, bne_iff_ne.2 hc⟩

/-! ## Steps of the scan -/

/-- The scan of a text, at its beginning or behind a point or the mark of an exponent, where
digits and hyphens are passed over. -/
def groupFrom (length : Nat) (mark : Char) (passing : Bool) (text : Text) : Text :=
  if passing then
    text.takeWhile isUngrouped ++ groupNumerals length mark (text.dropWhile isUngrouped)
  else groupNumerals length mark text

theorem groupFrom_false (length : Nat) (mark : Char) (text : Text) :
    groupFrom length mark false text = groupNumerals length mark text := rfl

theorem isUngrouped_of_isNumeralChar (hc : isNumeralChar c = true) : isUngrouped c = true := by
  rw [isUngrouped, hc, Bool.true_or]

theorem groupFrom_nil (length : Nat) (mark : Char) (passing : Bool) :
    groupFrom length mark passing [] = [] := by
  have hnil : groupNumerals length mark [] = [] := by rw [groupNumerals]
  cases passing with
  | true => exact hnil
  | false => exact hnil

/-- Behind a point or the mark of an exponent digits and hyphens stay as they are. -/
theorem groupFrom_append (hleft : ∀ c ∈ left, isUngrouped c = true) :
    groupFrom length mark true (left ++ right) = left ++ groupFrom length mark true right := by
  rw [groupFrom, groupFrom, if_pos rfl, if_pos rfl, List.takeWhile_append_of_pos hleft,
    List.dropWhile_append_of_pos hleft, List.append_assoc]

/-- All other characters are scanned as they are elsewhere. -/
theorem groupFrom_of_head? (hhead : ∀ c, text.head? = some c → isUngrouped c = false)
    (passing : Bool) : groupFrom length mark passing text = groupNumerals length mark text := by
  cases passing with
  | false => rfl
  | true =>
    cases text with
    | nil => rw [groupFrom_nil, groupNumerals]
    | cons c text =>
      have hc : ¬isUngrouped c = true := by simp [hhead c rfl]
      rw [groupFrom, if_pos rfl, List.takeWhile_cons_of_neg hc, List.dropWhile_cons_of_neg hc,
        List.nil_append]

/-- A run of digits is grouped on its own. -/
theorem groupNumerals_run (hleft : ∀ c ∈ left, isNumeralChar c = true)
    (hright : ∀ c, right.head? = some c → isNumeralChar c = false) :
    groupNumerals length mark (left ++ right) =
      groupRun length mark left ++ groupNumerals length mark right := by
  cases left with
  | nil => rfl
  | cons c left =>
    obtain ⟨hc, hleft⟩ := List.forall_mem_cons.1 hleft
    rw [List.cons_append, groupNumerals, if_pos hc, Text.takeWhile_run hleft hright,
      Text.dropWhile_run hleft hright]

/-- With a point or the mark of an exponent the scan begins to pass over digits. -/
theorem groupNumerals_point (hc : c = '.' ∨ c = 'e') (text : Text) :
    groupNumerals length mark (c :: text) = c :: groupFrom length mark true text := by
  have hnumeral : isNumeralChar c = false := by rcases hc with rfl | rfl <;> decide
  rw [groupNumerals, if_neg (by simp [hnumeral]), if_pos hc, groupFrom, if_pos rfl,
    List.cons_append]

/-- A character that is neither a digit, a point nor the mark of an exponent stays as it
is. -/
theorem groupNumerals_cons (hc : isNumeralChar c = false) (hpoint : c ≠ '.') (hexponent : c ≠ 'e')
    (text : Text) :
    groupNumerals length mark (c :: text) = c :: groupNumerals length mark text := by
  rw [groupNumerals, if_neg (by simp [hc]), if_neg (not_or.2 ⟨hpoint, hexponent⟩)]

end MatrixCalculator.Base
