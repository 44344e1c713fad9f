import MatrixCalculator.Proofs.Base.Conversion
import MatrixCalculator.Proofs.Base.Grouping

/-!
# Numerals beside numerals

Behind a point the scan for groups passes over digits and hyphens, because exponents may
have both.  A difference behind a fraction looks the same, so the numeral behind the hyphen
is passed over too, and the next one if another hyphen follows.  All other characters end
the fraction, and every numeral behind them is grouped as it is on its own.
-/

namespace MatrixCalculator.Base

variable {base : Base} {length : Nat} {mark c : Char}

/-! ## The length of groups -/

/-- A run gets as many marks as there are whole groups behind its first digit. -/
theorem length_groupRun (length : Nat) (mark : Char) (text : Text) :
    (groupRun length mark text).length = text.length + (text.length - 1) / length := by
  induction text with
  | nil => simp [groupRun]
  | cons digit text ih =>
    by_cases htext : text = []
    · simp [htext, groupRun]
    · have hpos := List.length_pos_iff.2 htext
      have hstep := @Nat.succ_div (text.length - 1) length
      rw [Nat.sub_add_cancel hpos] at hstep
      rw [groupRun_cons digit htext, List.length_cons, List.length_append, ih, List.length_cons,
        Nat.add_sub_cancel, hstep]
      split
      · rw [List.length_singleton]
        omega
      · rw [List.length_nil]
        omega

/-- Runs that are no longer than a group get no mark. -/
theorem groupRun_of_length_le {text : Text} (htext : text.length ≤ length) :
    groupRun length mark text = text := by
  induction text with
  | nil => rfl
  | cons digit text ih =>
    by_cases hnil : text = []
    · rw [hnil, groupRun]
    · have hpos := List.length_pos_iff.2 hnil
      rw [List.length_cons] at htext
      rw [groupRun_cons digit hnil, if_neg (Nat.not_dvd_of_pos_of_lt hpos htext), ih (by omega),
        List.nil_append]

theorem groupRun_eq_self_iff (hlength : 0 < length) {text : Text} :
    groupRun length mark text = text ↔ text.length ≤ length := by
  refine ⟨fun heq => ?_, groupRun_of_length_le⟩
  have hmarks := congrArg List.length heq
  rw [length_groupRun, Nat.add_eq_left, Nat.div_eq_zero_iff_lt hlength] at hmarks
  omega

/-! ## Sequences of numerals -/

def joints : Text := [Symbol.times, Symbol.divide] ++ "+-()[];,".toList

theorem of_mem_joints (hc : c ∈ joints) : isNumeralChar c = false ∧ c ≠ '.' ∧ c ≠ 'e' := by
  have hjoints : ∀ c ∈ joints, isNumeralChar c = false ∧ c ≠ '.' ∧ c ≠ 'e' :=
    List.all_iff_forall_prop.1 (by decide)
  exact hjoints c hc

structure Link (base : Base) where
  joint : Char
  isJoint : joint ∈ joints
  numeral : Option (Spelled base)

structure NumeralSequence (base : Base) where
  first : Option (Spelled base)
  links : List (Link base)

def hasFraction (numeral : Option (Spelled base)) : Bool := numeral.any (·.fraction.isSome)

/-- The links, each with whether the scan is still behind a point where its numeral begins.
It is if only hyphens, and numerals that are passed over, have followed a fraction. -/
def scanned (passing : Bool) : List (Link base) → List (Bool × Link base)
  | [] => []
  | link :: links =>
    let hidden := passing && link.joint == '-'
    (hidden, link) :: scanned (hidden || hasFraction link.numeral) links

def linkText (spell : Bool → Spelled base → Text) (entry : Bool × Link base) : Text :=
  entry.2.joint :: entry.2.numeral.elim [] (spell entry.1)

def linksText (spell : Bool → Spelled base → Text) (passing : Bool) (links : List (Link base)) :
    Text :=
  (scanned passing links).flatMap (linkText spell)

namespace NumeralSequence

/-- The text of a sequence whose numerals are spelled in some way, which may depend on whether
the scan passes over a numeral. -/
def spelled (s : NumeralSequence base) (spell : Bool → Spelled base → Text) : Text :=
  s.first.elim [] (spell false) ++ linksText spell (hasFraction s.first) s.links

def text (s : NumeralSequence base) : Text := s.spelled fun _ numeral => numeral.text '.'

def hidden (s : NumeralSequence base) : List (Spelled base) :=
  (scanned (hasFraction s.first) s.links).flatMap fun entry =>
    if entry.1 then entry.2.numeral.toList else []

end NumeralSequence

def spellAlone (base : Base) (separators : Separators) (_ : Bool) (numeral : Spelled base) : Text :=
  base.group separators (numeral.text '.')

/-- What the scan makes of a numeral, which it groups or passes over. -/
def spellScanned (base : Base) (separators : Separators) (hidden : Bool) (numeral : Spelled base) :
    Text :=
  if hidden then numeral.text '.' else spellAlone base separators hidden numeral

/-! ## Steps over a sequence -/

theorem linksText_cons (spell : Bool → Spelled base → Text) (passing : Bool) (link : Link base)
    (links : List (Link base)) :
    linksText spell passing (link :: links) =
      link.joint :: (link.numeral.elim [] (spell (passing && link.joint == '-')) ++
        linksText spell ((passing && link.joint == '-') || hasFraction link.numeral) links) := by
  rw [linksText, scanned, List.flatMap_cons, linkText, List.cons_append]
  rfl

/-- No numeral goes on with what follows it. -/
theorem head?_linksText (spell : Bool → Spelled base → Text) (passing : Bool)
    (links : List (Link base)) :
    ∀ c, (linksText spell passing links).head? = some c → isNumeralChar c = false := by
  cases links with
  | nil => exact nofun
  | cons link links =>
    rw [linksText_cons]
    rintro _ ⟨⟩
    exact (of_mem_joints link.isJoint).1

/-- A joining character ends what the scan passes over, unless it is a hyphen. -/
theorem groupFrom_joint (hc : c ∈ joints) (passing : Bool) (text : Text) :
    groupFrom length mark passing (c :: text) =
      c :: groupFrom length mark (passing && c == '-') text := by
  obtain ⟨hnumeral, hpoint, hexponent⟩ := of_mem_joints hc
  cases passing with
  | false =>
    rw [Bool.false_and, groupFrom_false, groupFrom_false,
      groupNumerals_cons hnumeral hpoint hexponent]
  | true =>
    rw [Bool.true_and]
    by_cases hhyphen : c = '-'
    · subst hhyphen
      have hungrouped : ∀ c ∈ ['-'], isUngrouped c = true := List.forall_mem_singleton.2 rfl
      exact groupFrom_append hungrouped
    · have hends : ∀ d, (c :: text).head? = some d → isUngrouped d = false := by
        rintro _ ⟨⟩
        simp [isUngrouped, hnumeral, hhyphen]
      rw [groupFrom_of_head? hends, groupNumerals_cons hnumeral hpoint hexponent,
        beq_eq_false_iff_ne.2 hhyphen, groupFrom_false]

/-- The whole part of a numeral is grouped or passed over, and behind a fraction the scan
passes over what follows. -/
theorem groupFrom_numeral (numeral : Spelled base) (passing : Bool) {rest : Text}
    (hrest : ∀ c, rest.head? = some c → isNumeralChar c = false) :
    groupFrom length mark passing (numeral.text '.' ++ rest) =
      (if passing then numeral.whole else groupRun length mark numeral.whole) ++
        (numeral.fraction.elim [] ('.' :: ·) ++
          groupFrom length mark (passing || numeral.fraction.isSome) rest) := by
  have hwhole : ∀ c ∈ numeral.whole, isNumeralChar c = true :=
    fun c hc => (numeral.isDigit_whole c hc).1
  have hfraction : ∀ c ∈ numeral.fractionDigits, isUngrouped c = true :=
    fun c hc => isUngrouped_of_isNumeralChar (numeral.isDigit_fractionDigits c hc).1
  have hhead : ∀ c, (numeral.fraction.elim [] ('.' :: ·) ++ rest).head? = some c →
      isNumeralChar c = false := by
    cases numeral.fraction with
    | none => exact hrest
    | some digits =>
      rintro _ ⟨⟩
      decide
  have hbehind : ∀ passing, groupFrom length mark passing
      (numeral.fraction.elim [] ('.' :: ·) ++ rest) = numeral.fraction.elim [] ('.' :: ·) ++
        groupFrom length mark (passing || numeral.fraction.isSome) rest := by
    intro passing
    rw [Spelled.fractionDigits] at hfraction
    cases hdigits : numeral.fraction with
    | none => rw [Option.isSome_none, Bool.or_false]; rfl
    | some digits =>
      rw [hdigits, Option.getD_some] at hfraction
      have hpoint : ∀ c, ('.' :: (digits ++ rest)).head? = some c → isUngrouped c = false := by
        rintro _ ⟨⟩
        decide
      rw [Option.elim_some, List.cons_append, groupFrom_of_head? hpoint,
        groupNumerals_point (.inl rfl), groupFrom_append hfraction, Option.isSome_some,
        Bool.or_true, List.cons_append]
  rw [Spelled.text, List.append_assoc]
  cases passing with
  | true =>
    rw [groupFrom_append fun c hc => isUngrouped_of_isNumeralChar (hwhole c hc), hbehind]
    rfl
  | false =>
    rw [groupFrom_false, groupNumerals_run hwhole hhead, ← groupFrom_false, hbehind]
    rfl

variable (separators : Separators)

theorem spellAlone_eq (hidden : Bool) (numeral : Spelled base) :
    spellAlone base separators hidden numeral =
      groupRun base.groupLength (base.groupMark separators) numeral.whole ++
        numeral.fraction.elim [] ('.' :: ·) := by
  have hscan := @groupFrom_numeral base base.groupLength (base.groupMark separators) numeral
    false [] nofun
  rwa [List.append_nil, groupFrom_nil, List.append_nil] at hscan

/-- The scan of a numeral, if there is one. -/
theorem groupFrom_elim (numeral : Option (Spelled base)) (passing : Bool) {rest : Text}
    (hrest : ∀ c, rest.head? = some c → isNumeralChar c = false) :
    groupFrom base.groupLength (base.groupMark separators) passing
        (numeral.elim [] (·.text '.') ++ rest) =
      numeral.elim [] (spellScanned base separators passing) ++
        groupFrom base.groupLength (base.groupMark separators)
          (passing || hasFraction numeral) rest := by
  cases numeral with
  | none =>
    rw [hasFraction, Option.any_none, Bool.or_false]
    rfl
  | some numeral =>
    rw [Option.elim_some, Option.elim_some, groupFrom_numeral numeral passing hrest, spellScanned,
      spellAlone_eq, ← List.append_assoc]
    cases passing <;> rfl

/-- The scan of the links of a sequence. -/
theorem groupFrom_linksText (passing : Bool) (links : List (Link base)) :
    groupFrom base.groupLength (base.groupMark separators) passing
        (linksText (fun _ numeral => numeral.text '.') passing links) =
      linksText (spellScanned base separators) passing links := by
  induction links generalizing passing with
  | nil => exact groupFrom_nil ..
  | cons link links ih =>
    rw [linksText_cons, linksText_cons, groupFrom_joint link.isJoint,
      groupFrom_elim separators link.numeral _ (head?_linksText _ _ links), ih]

/-! ## Differences behind a fraction -/

/-- Texts of pieces that are no longer on the left are equal only piece by piece. -/
theorem flatMap_eq_flatMap_iff {α : Type} {f g : α → Text} {pieces : List α}
    (hle : ∀ a ∈ pieces, (f a).length ≤ (g a).length) :
    pieces.flatMap f = pieces.flatMap g ↔ ∀ a ∈ pieces, f a = g a := by
  refine ⟨fun heq => ?_, List.flatMap_congr⟩
  induction pieces with
  | nil => exact nofun
  | cons a pieces ih =>
    obtain ⟨hfirst, hothers⟩ := List.forall_mem_cons.1 hle
    have htotal : (pieces.flatMap f).length ≤ (pieces.flatMap g).length := by
      rw [List.length_flatMap, List.length_flatMap]
      exact List.sum_le_sum hothers
    have hlength := congrArg List.length heq
    rw [List.flatMap_cons, List.flatMap_cons] at heq hlength
    rw [List.length_append, List.length_append] at hlength
    obtain ⟨hhead, htail⟩ := List.append_inj heq (by omega)
    exact List.forall_mem_cons.2 ⟨hhead, ih hothers htail⟩

variable {separators}

/-- Passing over a numeral shows where its whole part is longer than a group. -/
theorem spellScanned_eq_iff (hidden : Bool) (numeral : Spelled base) :
    spellScanned base separators hidden numeral = spellAlone base separators hidden numeral ↔
      (hidden = true → numeral.whole.length ≤ base.groupLength) := by
  cases hidden with
  | false => exact iff_of_true rfl nofun
  | true =>
    rw [spellScanned, if_pos rfl, spellAlone_eq, Spelled.text, List.append_cancel_right_eq,
      eq_comm, groupRun_eq_self_iff base.groupLength_pos]
    exact ⟨fun hle _ => hle, fun hle => hle rfl⟩

theorem length_spellScanned_le (hidden : Bool) (numeral : Spelled base) :
    (spellScanned base separators hidden numeral).length ≤
      (spellAlone base separators hidden numeral).length := by
  cases hidden with
  | false => exact le_rfl
  | true =>
    rw [spellScanned, if_pos rfl, spellAlone_eq, Spelled.text, List.length_append,
      List.length_append, length_groupRun]
    exact Nat.add_le_add_right (Nat.le_add_right _ _) _

/-- The text of a link is the same in both spellings where its numeral is not passed over or is
no longer than a group. -/
theorem linkText_eq_iff (entry : Bool × Link base) :
    linkText (spellScanned base separators) entry = linkText (spellAlone base separators) entry ↔
      ∀ numeral ∈ if entry.1 then entry.2.numeral.toList else [],
        numeral.whole.length ≤ base.groupLength := by
  obtain ⟨hidden, joint, isJoint, numeral⟩ := entry
  rw [linkText, linkText, List.cons.injEq, eq_self, true_and]
  cases numeral with
  | none => cases hidden <;> exact iff_of_true rfl nofun
  | some n =>
    refine (spellScanned_eq_iff hidden n).trans ?_
    cases hidden with
    | false => exact iff_of_true nofun nofun
    | true => simp

theorem length_linkText_le (entry : Bool × Link base) :
    (linkText (spellScanned base separators) entry).length ≤
      (linkText (spellAlone base separators) entry).length := by
  obtain ⟨hidden, joint, isJoint, numeral⟩ := entry
  cases numeral with
  | none => exact le_rfl
  | some n => exact Nat.succ_le_succ (length_spellScanned_le hidden n)

/-- A sequence in groups: the scan passes over the numerals that only hyphens part from a
fraction, and groups each other numeral as it does on its own.  So it depends on the
neighbours exactly where a whole part that is passed over is longer than a group. -/
theorem group_sequence (base : Base) (separators : Separators) (s : NumeralSequence base) :
    base.group separators s.text = s.spelled (spellScanned base separators) ∧
    (base.group separators s.text = s.spelled (spellAlone base separators) ↔
      ∀ numeral ∈ s.hidden, numeral.whole.length ≤ base.groupLength) := by
  have hscan : base.group separators s.text = s.spelled (spellScanned base separators) := by
    rw [NumeralSequence.text, NumeralSequence.spelled, group, ← groupFrom_false,
      groupFrom_elim separators s.first false (head?_linksText _ _ s.links), Bool.false_or,
      groupFrom_linksText]
    rfl
  refine ⟨hscan, ?_⟩
  calc base.group separators s.text = s.spelled (spellAlone base separators)
      ↔ linksText (spellScanned base separators) (hasFraction s.first) s.links =
          linksText (spellAlone base separators) (hasFraction s.first) s.links := by
        rw [hscan]
        exact List.append_right_inj (s.first.elim [] (spellScanned base separators false))
    _ ↔ ∀ numeral ∈ s.hidden, numeral.whole.length ≤ base.groupLength := by
        rw [linksText, linksText, flatMap_eq_flatMap_iff fun entry _ => length_linkText_le entry,
          NumeralSequence.hidden, List.forall_mem_flatMap]
        exact forall₂_congr fun entry _ => linkText_eq_iff entry

theorem group_difference_behind_fraction :
    group .decimal .canonical "1.5-1234".toList = "1.5-1234".toList ∧
      group .decimal .canonical "1.5-1234".toList ≠
        group .decimal .canonical "1.5".toList ++
          '-' :: group .decimal .canonical "1234".toList := by
  decide +kernel

end MatrixCalculator.Base
