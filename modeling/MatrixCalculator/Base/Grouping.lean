import MatrixCalculator.Base.Basic

/-!
# Digit groups

Grouping marks are layout: they stand in whole parts only, where a multiple of
the group length of digits remains to the right.
-/

namespace MatrixCalculator.Base

/-- Digits with a mark wherever whole groups remain to the right. -/
def groupRun (length : Nat) (mark : Char) : Text → Text
  | [] => []
  | [digit] => [digit]
  | digit :: next :: rest =>
    if (rest.length + 1) % length = 0 then digit :: mark :: groupRun length mark (next :: rest)
    else digit :: groupRun length mark (next :: rest)

/-- The characters behind a point or an exponent mark that are not grouped. -/
def isUngrouped (c : Char) : Bool := isNumeralChar c || c == '-'

/-- The whole part of every numeral in groups. -/
def groupNumerals (length : Nat) (mark : Char) : Text → Text
  | [] => []
  | c :: text =>
    if isNumeralChar c then
      groupRun length mark (c :: text.takeWhile isNumeralChar) ++
        groupNumerals length mark (text.dropWhile isNumeralChar)
    else if c = '.' ∨ c = 'e' then
      c :: text.takeWhile isUngrouped ++ groupNumerals length mark (text.dropWhile isUngrouped)
    else c :: groupNumerals length mark text
termination_by text => text.length
decreasing_by
  · have := Text.length_dropWhile_le isNumeralChar text
    simp only [List.length_cons]
    omega
  · have := Text.length_dropWhile_le isUngrouped text
    simp only [List.length_cons]
    omega
  · simp

def group (base : Base) (separators : Separators) (text : Text) : Text :=
  groupNumerals base.groupLength (base.groupMark separators) text

end MatrixCalculator.Base
