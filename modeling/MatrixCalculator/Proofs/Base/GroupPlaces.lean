import MatrixCalculator.Proofs.Base.Grouping
import MatrixCalculator.Symbol

/-!
# Where grouping marks stand

Groups are counted from the right end of a whole part while the text is scanned from the
left.  In a single numeral a mark stands wherever whole groups of digits remain to the
right, and nowhere else: not in front, not at the end, and not behind the point or the mark
of the exponent.
-/

namespace MatrixCalculator.Base

variable {length : Nat} {mark : Char}

/-! ## Runs of digits -/

section Runs

variable {text left right before behind : Text}

/-- Whether a mark stands in a text between two parts of what the text is without marks. -/
def MarkedBetween (mark : Char) (grouped left right : Text) : Prop :=
  ∃ before behind, grouped = before ++ mark :: behind ∧
    before.filter (· != mark) = left ∧ behind.filter (· != mark) = right

/-- Whether a text is a run of digits with single marks where whole groups remain to the
right. -/
structure IsGrouped (length : Nat) (mark : Char) (digits grouped : Text) : Prop where
  filter_eq : grouped.filter (· != mark) = digits
  markedBetween_iff : ∀ left right, left ++ right = digits →
    (MarkedBetween mark grouped left right ↔ left ≠ [] ∧ right ≠ [] ∧ length ∣ right.length)
  not_doubled : ¬[mark, mark] <:+: grouped
  head?_ne : grouped.head? ≠ some mark
  getLast?_ne : grouped.getLast? ≠ some mark

/-- A run of digits begins with its first digit. -/
theorem head?_groupRun (length : Nat) (mark : Char) (text : Text) :
    (groupRun length mark text).head? = text.head? := by
  cases text with
  | nil => rfl
  | cons digit text =>
    by_cases htext : text = []
    · rw [htext, groupRun]
    · rw [groupRun_cons digit htext]
      rfl

/-- Where whole groups remain to the right a mark stands in a run. -/
theorem exists_groupRun_append (hleft : left ≠ []) (hright : right ≠ [])
    (hgroups : length ∣ right.length) (hmark : mark ∉ left) :
    ∃ before, groupRun length mark (left ++ right) = before ++ mark :: groupRun length mark right ∧
      before.filter (· != mark) = left := by
  induction left with
  | nil => exact absurd rfl hleft
  | cons digit left ih =>
    obtain ⟨hdigit, hmark⟩ := not_or.1 (List.mem_cons.not.1 hmark)
    by_cases hnil : left = []
    · subst hnil
      refine ⟨[digit], ?_, filter_mark_cons_of_ne hdigit []⟩
      exact (groupRun_cons digit hright).trans (by rw [if_pos hgroups]; rfl)
    · obtain ⟨before, hrun, hfilter⟩ := ih hnil hmark
      rw [List.cons_append, groupRun_cons digit (List.append_ne_nil_of_right_ne_nil left hright),
        hrun]
      split
      · refine ⟨digit :: mark :: before, rfl, ?_⟩
        rw [filter_mark_cons_of_ne hdigit, filter_mark_cons, hfilter]
      · exact ⟨digit :: before, rfl, by rw [filter_mark_cons_of_ne hdigit, hfilter]⟩

/-- A mark in a run stands between digits, alone, and where whole groups remain to the
right. -/
theorem of_groupRun_eq_append (hmark : mark ∉ text)
    (hrun : groupRun length mark text = before ++ mark :: behind) :
    before.filter (· != mark) ≠ [] ∧ behind.head? ≠ some mark ∧
      behind.filter (· != mark) ≠ [] ∧ length ∣ (behind.filter (· != mark)).length := by
  induction text generalizing before with
  | nil => cases before <;> cases hrun
  | cons digit text ih =>
    obtain ⟨hdigit, hrest⟩ := not_or.1 (List.mem_cons.not.1 hmark)
    cases before with
    | nil =>
      -- no mark is in front, because the run begins with its digit
      have hhead := congrArg List.head? hrun
      rw [head?_groupRun] at hhead
      exact absurd (Option.some_inj.1 hhead).symm hdigit
    | cons c before =>
      by_cases htext : text = []
      · subst htext
        cases before <;> cases (List.cons.inj hrun).2
      rw [groupRun_cons digit htext, List.cons_append, List.cons.injEq] at hrun
      obtain ⟨rfl, hrun⟩ := hrun
      rw [filter_mark_cons_of_ne hdigit]
      refine ⟨List.cons_ne_nil _ _, ?_⟩
      split at hrun
      · next hgroups =>
        cases before with
        | nil =>
          -- the mark is the one behind the digit, and the rest of the run follows it
          have hbehind : groupRun length mark text = behind := (List.cons.inj hrun).2
          rw [← hbehind, filter_groupRun hrest, head?_groupRun]
          exact ⟨fun hhead => hrest (List.mem_of_mem_head? hhead), htext, hgroups⟩
        | cons d before => exact (ih hrest (List.cons.inj hrun).2).2
      · exact (ih hrest hrun).2

/-- A run of digits is in groups. -/
theorem isGrouped_groupRun (length : Nat) (hmark : mark ∉ text) :
    IsGrouped length mark text (groupRun length mark text) where
  filter_eq := filter_groupRun hmark
  markedBetween_iff left right hdigits := by
    constructor
    · rintro ⟨before, behind, hrun, rfl, rfl⟩
      obtain ⟨hbefore, -, hbehind⟩ := of_groupRun_eq_append hmark hrun
      exact ⟨hbefore, hbehind⟩
    · rintro ⟨hleft, hright, hgroups⟩
      subst hdigits
      rw [List.mem_append, not_or] at hmark
      obtain ⟨before, hrun, hfilter⟩ := exists_groupRun_append hleft hright hgroups hmark.1
      exact ⟨before, groupRun length mark right, hrun, hfilter, filter_groupRun hmark.2⟩
  not_doubled := by
    rintro ⟨before, behind, hrun⟩
    rw [List.append_assoc] at hrun
    exact (of_groupRun_eq_append hmark hrun.symm).2.1 rfl
  head?_ne := by
    rw [head?_groupRun]
    exact fun hhead => hmark (List.mem_of_mem_head? hhead)
  getLast?_ne := by
    intro hlast
    obtain ⟨before, hrun⟩ := List.getLast?_eq_some_iff.1 hlast
    exact (of_groupRun_eq_append hmark hrun).2.2.1 rfl

end Runs

/-! ## Single numerals -/

/-- Whether a character is in no numeral. -/
def IsOutside (c : Char) : Prop := isNumeralChar c = false ∧ c ≠ '.' ∧ c ≠ 'e' ∧ c ≠ '-'

instance (c : Char) : Decidable (IsOutside c) := inferInstanceAs (Decidable (_ ∧ _))

theorem not_isOutside {c : Char} (hc : isUngrouped c = true) : ¬IsOutside c := by
  rintro ⟨hnumeral, -, -, hhyphen⟩
  rw [isUngrouped, hnumeral, Bool.false_or, beq_iff_eq] at hc
  exact hhyphen hc

/-- An optional sign, digits, a point with digits, and an exponent with an optional hyphen and
digits.  Of digits there may be any number. -/
structure SignedNumeral where
  sign : Option Char
  whole : Text
  fraction : Option Text
  exponent : Option (Bool × Text)
  isSign : ∀ c ∈ sign, c ∈ ['+', '-', Symbol.minus]
  isNumeralChar_whole : ∀ c ∈ whole, isNumeralChar c = true
  isNumeralChar_fraction : ∀ digits ∈ fraction, ∀ c ∈ digits, isNumeralChar c = true
  isNumeralChar_exponent : ∀ part ∈ exponent, ∀ c ∈ part.2, isNumeralChar c = true

namespace SignedNumeral

variable (n : SignedNumeral)

def fractionText : Text := n.fraction.elim [] ('.' :: ·)

def exponentText : Text :=
  n.exponent.elim [] fun part => 'e' :: ((if part.1 then ['-'] else []) ++ part.2)

def behind : Text := n.fractionText ++ n.exponentText

def text : Text := n.sign.toList ++ (n.whole ++ n.behind)

theorem head?_exponentText : ∀ c, n.exponentText.head? = some c → isUngrouped c = false := by
  rw [exponentText]
  cases n.exponent with
  | none => exact nofun
  | some part =>
    rintro _ ⟨⟩
    decide

theorem head?_behind : ∀ c, n.behind.head? = some c → isNumeralChar c = false := by
  rw [behind, fractionText]
  cases n.fraction with
  | none =>
    intro c hhead
    exact (Bool.or_eq_false_iff.1 (n.head?_exponentText c hhead)).1
  | some digits =>
    rintro _ ⟨⟩
    decide

theorem isUngrouped_exponent {part : Bool × Text} (hpart : part ∈ n.exponent) :
    ∀ c ∈ (if part.1 then ['-'] else []) ++ part.2, isUngrouped c = true := by
  have hdigits := n.isNumeralChar_exponent part hpart
  refine List.forall_mem_append.2 ⟨?_, fun c hc => isUngrouped_of_isNumeralChar (hdigits c hc)⟩
  split
  · exact List.forall_mem_singleton.2 rfl
  · exact List.forall_mem_nil _

theorem isUngrouped_fraction {digits : Text} (hdigits : digits ∈ n.fraction) :
    ∀ c ∈ digits, isUngrouped c = true :=
  fun c hc => isUngrouped_of_isNumeralChar (n.isNumeralChar_fraction digits hdigits c hc)

/-- The scan passes over an exponent. -/
theorem groupNumerals_exponentText :
    groupNumerals length mark n.exponentText = n.exponentText := by
  rw [exponentText]
  cases hexponent : n.exponent with
  | none => rw [Option.elim_none, groupNumerals]
  | some part =>
    have hscan := @groupFrom_append length mark _ [] (n.isUngrouped_exponent hexponent)
    rw [List.append_nil, groupFrom_nil, List.append_nil] at hscan
    rw [Option.elim_some, groupNumerals_point (.inr rfl), hscan]

/-- The scan passes over all that stands behind a whole part. -/
theorem groupNumerals_behind : groupNumerals length mark n.behind = n.behind := by
  rw [behind, fractionText]
  cases hfraction : n.fraction with
  | none => exact n.groupNumerals_exponentText
  | some digits =>
    rw [Option.elim_some, List.cons_append, groupNumerals_point (.inl rfl),
      groupFrom_append (n.isUngrouped_fraction hfraction),
      groupFrom_of_head? n.head?_exponentText, groupNumerals_exponentText]

/-- Of a numeral only the whole part is grouped. -/
theorem groupNumerals_text : groupNumerals length mark n.text =
    n.sign.toList ++ (groupRun length mark n.whole ++ n.behind) := by
  have hunsigned : groupNumerals length mark (n.whole ++ n.behind) =
      groupRun length mark n.whole ++ n.behind := by
    rw [groupNumerals_run n.isNumeralChar_whole n.head?_behind, groupNumerals_behind]
  rw [text]
  cases hsign : n.sign with
  | none => exact hunsigned
  | some c =>
    have hsigns : ∀ c ∈ ['+', '-', Symbol.minus], isNumeralChar c = false ∧ c ≠ '.' ∧ c ≠ 'e' :=
      List.all_iff_forall_prop.1 (by decide)
    obtain ⟨hc, hpoint, hexponent⟩ := hsigns c (n.isSign c hsign)
    change groupNumerals length mark (c :: (n.whole ++ n.behind)) = c :: _
    rw [groupNumerals_cons hc hpoint hexponent, hunsigned]
    rfl

theorem forall_mem_behind : ∀ c ∈ n.behind, ¬IsOutside c := by
  rw [behind, List.forall_mem_append, fractionText, exponentText]
  constructor
  · cases hfraction : n.fraction with
    | none => exact List.forall_mem_nil _
    | some digits =>
      exact List.forall_mem_cons.2
        ⟨by decide, fun c hc => not_isOutside (n.isUngrouped_fraction hfraction c hc)⟩
  · cases hexponent : n.exponent with
    | none => exact List.forall_mem_nil _
    | some part =>
      exact List.forall_mem_cons.2
        ⟨by decide, fun c hc => not_isOutside (n.isUngrouped_exponent hexponent c hc)⟩

end SignedNumeral

/-- Grouping loses nothing: the text is what remains without the marks.  In a numeral only
the whole part gets marks, each where whole groups of its digits remain to the right. -/
theorem isGrouped_group (base : Base) (separators : Separators)
    (hmark : IsOutside (base.groupMark separators)) :
    (∀ text, base.groupMark separators ∉ text →
      (base.group separators text).filter (· != base.groupMark separators) = text) ∧
    ∀ n : SignedNumeral, ∃ grouped,
      base.group separators n.text = n.sign.toList ++ (grouped ++ n.behind) ∧
      IsGrouped base.groupLength (base.groupMark separators) n.whole grouped ∧
      base.groupMark separators ∉ n.behind := by
  refine ⟨fun text htext => filter_groupNumerals htext, fun n => ?_⟩
  have hwhole : base.groupMark separators ∉ n.whole := fun hmem =>
    not_isOutside (isUngrouped_of_isNumeralChar (n.isNumeralChar_whole _ hmem)) hmark
  have hbehind : base.groupMark separators ∉ n.behind := fun hmem =>
    n.forall_mem_behind _ hmem hmark
  exact ⟨groupRun base.groupLength (base.groupMark separators) n.whole, n.groupNumerals_text,
    isGrouped_groupRun _ hwhole, hbehind⟩

theorem isGrouped_group_millions :
    group .decimal .canonical "-1234567.8901e-12345".toList =
      "-1,234,567.8901e-12345".toList ∧
    IsGrouped 3 ',' "1234567".toList "1,234,567".toList := by
  have hgroup : group .decimal .canonical "-1234567.8901e-12345".toList =
      "-1,234,567".toList ++ ".8901e-12345".toList := by decide +kernel
  have hdigits : (∀ c ∈ "1234567".toList, isNumeralChar c = true) ∧
      (∀ c ∈ "8901".toList, isNumeralChar c = true) ∧
      ∀ c ∈ "12345".toList, isNumeralChar c = true :=
    ⟨List.all_iff_forall_prop.1 (by decide), List.all_iff_forall_prop.1 (by decide),
      List.all_iff_forall_prop.1 (by decide)⟩
  obtain ⟨-, hnumerals⟩ := isGrouped_group .decimal .canonical (by decide)
  obtain ⟨grouped, htext, hgrouped, -⟩ := hnumerals
    { sign := some '-'
      whole := "1234567".toList
      fraction := some "8901".toList
      exponent := some (true, "12345".toList)
      isSign := by rintro _ ⟨⟩; decide
      isNumeralChar_whole := hdigits.1
      isNumeralChar_fraction := by rintro _ ⟨⟩; exact hdigits.2.1
      isNumeralChar_exponent := by rintro _ ⟨⟩; exact hdigits.2.2 }
  have hwhole : '-' :: grouped = "-1,234,567".toList :=
    List.append_cancel_right (htext.symm.trans hgroup)
  obtain ⟨-, rfl⟩ := List.cons.inj hwhole
  exact ⟨hgroup, hgrouped⟩

end MatrixCalculator.Base
