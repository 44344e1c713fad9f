import MatrixCalculator.Fault

/-!
# Groups

Parenthesised groups are replaced by their values from the inside out: each
round replaces the groups that hold no other one, and rounds go on until there
is no parenthesis that opens a group.
-/

namespace MatrixCalculator.Expression

/-- One round.  The pending text is what has been read since the last parenthesis
that opened, its last character first; there is none behind a parenthesis that
closed.  The second part of the result says whether a group has been replaced. -/
def replaceInnermost (evaluate : Text → Except Fault Text) :
    (pending : Option Text) → Text → Except Fault (Text × Bool)
  | none, [] => return ([], false)
  | some pending, [] => return ('(' :: pending.reverse, false)
  | none, c :: text => do
    if c = '(' then replaceInnermost evaluate (some []) text
    else
      let (rest, replaced) ← replaceInnermost evaluate none text
      return (c :: rest, replaced)
  | some pending, c :: text => do
    if c = '(' then
      let (rest, replaced) ← replaceInnermost evaluate (some []) text
      return ('(' :: pending.reverse ++ rest, replaced)
    else if c = ')' then
      if pending = [] then throw .emptyParentheses
      let value ← evaluate pending.reverse
      let (rest, _) ← replaceInnermost evaluate none text
      return (value ++ rest, true)
    else replaceInnermost evaluate (some (c :: pending)) text

/-- Rounds until no group is left, at most as many as there are groups. -/
def replaceGroups (evaluate : Text → Except Fault Text) :
    (rounds : Nat) → Text → Except Fault Text
  | 0, text => if '(' ∈ text then throw .unbalancedParentheses else return text
  | rounds + 1, text => do
    if '(' ∈ text then
      let (text, replaced) ← replaceInnermost evaluate none text
      if replaced then replaceGroups evaluate rounds text else throw .unbalancedParentheses
    else return text

def resolveGroups (evaluate : Text → Except Fault Text) (text : Text) : Except Fault Text :=
  replaceGroups evaluate (text.count '(') text

end MatrixCalculator.Expression
