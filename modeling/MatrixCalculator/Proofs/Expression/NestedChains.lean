import MatrixCalculator.Proofs.Expression.NestedGroups
import MatrixCalculator.Proofs.Expression.TermChains

/-!
# Chains in chains

The terms of a chain may be chains in parentheses.  What goes from one level to the next is
text: a single term stays as it is, the value of a longer chain is written.  A value that is
not a number is written as a word that no expression knows, and nothing is made of a chain
with such a term.
-/

namespace MatrixCalculator

open Chain Expression Numeral Outcome Text

mutual

/-- A numeral or a chain in parentheses, with any number of signs in front of it. -/
inductive NestedTerm where
  | numeral (s : PlainNumeral)
  | group (inner : NestedChain)
  | minus (t : NestedTerm)

/-- Terms with operators between them. -/
inductive NestedChain where
  | single (t : NestedTerm)
  | link (t : NestedTerm) (op : Operator) (rest : NestedChain)

end

/-! ## Texts -/

mutual

def NestedTerm.text : NestedTerm → Text
  | .numeral s => s.text
  | .group inner => '(' :: (inner.text ++ [')'])
  | .minus t => '-' :: t.text

def NestedChain.text : NestedChain → Text
  | .single t => t.text
  | .link t op rest => t.text ++ (op.symbol ++ rest.text)

end

mutual

/-- The groups of a term in front of other text. -/
def NestedTerm.onto : NestedTerm → Nested → Nested
  | .numeral s, rest => rest.prepend s.text
  | .group inner, rest => .group [] inner.tree rest
  | .minus t, rest => (t.onto rest).prepend ['-']

def NestedChain.tree : NestedChain → Nested
  | .single t => t.onto (.plain [])
  | .link t op rest => t.onto (rest.tree.prepend op.symbol)

end

mutual

theorem NestedTerm.text_onto (rest : Nested) :
    ∀ t : NestedTerm, (t.onto rest).text = t.text ++ rest.text
  | .numeral s => Nested.text_prepend s.text rest
  | .group inner => by
    simp [NestedTerm.onto, NestedTerm.text, Nested.text, inner.text_tree]
  | .minus t => by
    rw [NestedTerm.onto, Nested.text_prepend, t.text_onto rest]
    rfl

theorem NestedChain.text_tree : ∀ e : NestedChain, e.tree.text = e.text
  | .single t => by
    rw [NestedChain.tree, t.text_onto, NestedChain.text]
    exact List.append_nil _
  | .link t op rest => by
    rw [NestedChain.tree, t.text_onto, Nested.text_prepend, rest.text_tree, NestedChain.text]

end

/-- What becomes of a term does not depend on what stands behind it. -/
theorem NestedTerm.flatten_onto (evaluate : Text → Except Fault Text) (rest : Nested) :
    ∀ t : NestedTerm, (t.onto rest).flatten evaluate = (do
      let text ← (t.onto (.plain [])).flatten evaluate
      let others ← rest.flatten evaluate
      return text ++ others)
  | .numeral s => by
    simp [NestedTerm.onto, Nested.flatten_prepend, Nested.flatten, map_eq_pure_bind]
  | .group inner => by simp [NestedTerm.onto, Nested.flatten]
  | .minus t => by
    rw [NestedTerm.onto, NestedTerm.onto, Nested.flatten_prepend, Nested.flatten_prepend,
      t.flatten_onto evaluate rest]
    simp [map_eq_pure_bind]

mutual

theorem NestedTerm.fits_text : ∀ t : NestedTerm, Fits IsQuiet t.text
  | .numeral s => s.fits_text
  | .group inner => by
    have hparentheses : ∀ c ∈ ['(', ')'], Fits IsQuiet [c] := by
      intro c hc
      have halphabet : ∀ c ∈ ['(', ')'], c ∈ alphabet ∧ c ≠ 'a' ∧ c ≠ 'e' :=
        List.all_iff_forall_prop.1 (by decide)
      obtain ⟨hmem, hlower, hmark⟩ := halphabet c hc
      exact fun _ => ⟨isQuiet hmem hlower hmark, trivial⟩
    exact (hparentheses '(' (by simp)).append
      (inner.fits_text.append (hparentheses ')' (by simp)))
  | .minus t => fun _ => ⟨isQuiet_minus, t.fits_text _⟩

theorem NestedChain.fits_text : ∀ e : NestedChain, Fits IsQuiet e.text
  | .single t => t.fits_text
  | .link t op rest => t.fits_text.append ((fits_symbol op).append rest.fits_text)

end

mutual

theorem NestedTerm.not_mem_text : ∀ t : NestedTerm, '[' ∉ t.text
  | .numeral _ => not_mem_typed (by decide) (by decide)
  | .group inner => by simp [NestedTerm.text, inner.not_mem_text]
  | .minus t => by simp [NestedTerm.text, t.not_mem_text]

theorem NestedChain.not_mem_text : ∀ e : NestedChain, '[' ∉ e.text
  | .single t => t.not_mem_text
  | .link t op rest => by
    have hsymbol : '[' ∉ op.symbol := not_mem_symbol op (by decide)
    simp [NestedChain.text, t.not_mem_text, hsymbol, rest.not_mem_text]

end

/-! ## Values -/

/-- The numbers that the terms of a chain denote. -/
structure TermValues where
  first : Option Float
  links : Links (Option Float)

namespace TermValues

def isDefined (v : TermValues) : Bool := allDefined v.first v.links

def value (v : TermValues) : Float :=
  linkValue Operator.onScalars (fun x? => x?.getD 0) v.first v.links

/-- The number that the text denotes which is made of the chain.  A single term stays as
it is, the value of a longer chain is written. -/
def handedOn (v : TermValues) : Option Float :=
  match v.links with
  | [] => v.first
  | _ :: _ => if v.isDefined then shown? v.value else none

end TermValues

mutual

/-- The number that a term denotes, unless something in it is not a number. -/
def NestedTerm.value? : NestedTerm → Option Float
  | .numeral s => some s.value
  | .group inner => inner.values.handedOn
  | .minus t => t.value?.map (-·)

def NestedChain.values : NestedChain → TermValues
  | .single t => ⟨t.value?, []⟩
  | .link t op rest => ⟨t.value?, (op, rest.values.first) :: rest.values.links⟩

end

mutual

/-- The chains in the parentheses of a term, the inner ones included. -/
def NestedTerm.parts : NestedTerm → List NestedChain
  | .numeral _ => []
  | .group inner => inner :: inner.groups
  | .minus t => t.parts

def NestedChain.groups : NestedChain → List NestedChain
  | .single t => t.parts
  | .link t _ rest => t.parts ++ rest.groups

end

namespace NestedChain

/-- A chain and the chains in its parentheses. -/
def parts (e : NestedChain) : List NestedChain := e :: e.groups

def IsUndefined (e : NestedChain) : Prop :=
  e.values.isDefined = true ∧ e.values.value.isNaN = true

end NestedChain

mutual

/-- Whether a digit is at the end of what becomes of a term, if it denotes a number. -/
def NestedTerm.EndsInDigit : NestedTerm → Prop
  | .numeral s => endsOperand (ending none s.text) = true
  | .group inner => inner.EndsInDigit
  | .minus t => t.EndsInDigit

def NestedChain.EndsInDigit : NestedChain → Prop
  | .single t => t.EndsInDigit
  | .link t op rest => ∀ x, (NestedChain.link t op rest).values.handedOn = some x →
      x.isFinite = true

end

mutual

/-- Whether every hyphen is an operator: there is none behind an infinite value and behind
a point. -/
def NestedTerm.HasClosedMinuends : NestedTerm → Prop
  | .numeral _ => True
  | .group inner => inner.HasClosedMinuends
  | .minus t => t.HasClosedMinuends

def NestedChain.HasClosedMinuends : NestedChain → Prop
  | .single t => t.HasClosedMinuends
  | .link t op rest =>
    (op = .sub → t.EndsInDigit) ∧ t.HasClosedMinuends ∧ rest.HasClosedMinuends

end

/-! ## Parts that are not numbers -/

namespace TermValues

variable {v : TermValues} {first : Option Float} {link : Operator × Option Float}
  {links : Links (Option Float)}

theorem handedOn_cons : (⟨first, link :: links⟩ : TermValues).handedOn =
    if (⟨first, link :: links⟩ : TermValues).isDefined then
      shown? (⟨first, link :: links⟩ : TermValues).value
    else none := rfl

theorem handedOn_of_not_isDefined (hdefined : v.isDefined = false) : v.handedOn = none := by
  obtain ⟨first, links⟩ := v
  cases links with
  | nil =>
    cases first with
    | none => rfl
    | some x => cases hdefined
  | cons link links => rw [handedOn_cons, if_neg (by simp [hdefined])]

variable (hfirst : ∀ x, v.first = some x → x.isNaN = false)
include hfirst

theorem not_isNaN_handedOn {x : Float} (hx : v.handedOn = some x) : x.isNaN = false := by
  obtain ⟨first, links⟩ := v
  cases links with
  | nil => exact hfirst x hx
  | cons link links =>
    obtain ⟨-, hvalue⟩ := Option.ite_none_right_eq_some.1 (handedOn_cons ▸ hx)
    obtain ⟨hnumber, rfl⟩ := shown?_eq_some_iff.1 hvalue
    exact Scalar.not_isNaN_of_evaluate (Scalar.evaluate_write hnumber 0)

theorem handedOn_eq_none_iff :
    v.handedOn = none ↔ v.isDefined = true ∧ v.value.isNaN = true ∨ v.isDefined = false := by
  cases hdefined : v.isDefined with
  | false => simp [handedOn_of_not_isDefined hdefined]
  | true =>
    obtain ⟨first, links⟩ := v
    cases links with
    | nil =>
      obtain ⟨x, rfl⟩ : ∃ x, first = some x := by
        cases first with
        | none => cases hdefined
        | some x => exact ⟨x, rfl⟩
      have hvalue : (⟨some x, []⟩ : TermValues).value = x := linkValue_nil
      rw [hvalue, hfirst x rfl]
      exact ⟨nofun, by simp⟩
    | cons link links =>
      rw [handedOn_cons, if_pos hdefined, shown?]
      cases (⟨first, link :: links⟩ : TermValues).value.isNaN <;> simp

end TermValues

mutual

theorem NestedTerm.not_isNaN_value {x : Float} :
    ∀ t : NestedTerm, t.value? = some x → x.isNaN = false
  | .numeral s, rfl => Scalar.not_isNaN_typed s.toTypedNumeral
  | .group inner, hx => TermValues.not_isNaN_handedOn (fun _ => inner.not_isNaN_first) hx
  | .minus t, hx => by
    obtain ⟨y, hy, rfl⟩ := Option.map_eq_some_iff.1 hx
    rw [isNaN_neg]
    exact t.not_isNaN_value hy

theorem NestedChain.not_isNaN_first {x : Float} :
    ∀ e : NestedChain, e.values.first = some x → x.isNaN = false
  | .single t, hx => t.not_isNaN_value hx
  | .link t _ _, hx => t.not_isNaN_value hx

end

mutual

theorem NestedTerm.value?_eq_none_iff :
    ∀ t : NestedTerm, t.value? = none ↔ ∃ part ∈ t.parts, part.IsUndefined
  | .numeral s => by simp [NestedTerm.value?, NestedTerm.parts]
  | .group inner => by
    have hinner := TermValues.handedOn_eq_none_iff fun _ => inner.not_isNaN_first
    rw [NestedTerm.value?, hinner, inner.isDefined_eq_false_iff, NestedTerm.parts,
      List.exists_mem_cons_iff]
    rfl
  | .minus t => by
    rw [NestedTerm.value?, Option.map_eq_none_iff, t.value?_eq_none_iff, NestedTerm.parts]

theorem NestedChain.isDefined_eq_false_iff :
    ∀ e : NestedChain, e.values.isDefined = false ↔ ∃ part ∈ e.groups, part.IsUndefined
  | .single t => by
    rw [NestedChain.groups, ← t.value?_eq_none_iff]
    simp [NestedChain.values, TermValues.isDefined, allDefined]
  | .link t op rest => by
    have hlinked : (NestedChain.link t op rest).values.isDefined =
        (t.value?.isSome && rest.values.isDefined) := rfl
    simp only [hlinked, NestedChain.groups, List.mem_append, or_and_right, exists_or,
      ← t.value?_eq_none_iff, ← rest.isDefined_eq_false_iff]
    cases t.value? <;> simp

end

/-- No number is handed on of a chain just if some part of it is not a number. -/
theorem NestedChain.handedOn_eq_none_iff (e : NestedChain) :
    e.values.handedOn = none ↔ ∃ part ∈ e.parts, part.IsUndefined := by
  rw [TermValues.handedOn_eq_none_iff fun _ => e.not_isNaN_first, e.isDefined_eq_false_iff,
    NestedChain.parts, List.exists_mem_cons_iff]
  rfl

end MatrixCalculator
