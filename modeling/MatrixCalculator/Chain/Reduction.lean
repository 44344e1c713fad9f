import MatrixCalculator.Chain
import MatrixCalculator.Fault

/-!
# Reducing a chain

A chain is reduced in place.  Every operand starts in a slot of its own.  An
operator takes the operands from the nearest slots on both sides that still hold
one, and leaves its value in the slot on its left and nothing in the one on its
right.  Powers are applied from the right, then products and then sums from the
left.  An operator without an operand on one side would be a defect and not a
fault; `reduceSlots_ne_missingOperand` and `reduceSlots_ne_nothingLeft` exclude
it, so `reduce` has no outcome for it.
-/

namespace MatrixCalculator.Chain

variable {α : Type}

/-- The operands of a chain that is being reduced.  A slot is empty once its
operand has been taken. -/
abbrev Slots (α : Type) := Array (Option α)

inductive Stop where
  | fault (cause : Fault)
  | missingOperand (home : Nat)
  | nothingLeft
  deriving DecidableEq, Repr

namespace Slots

/-- Whether a slot holds an operand. -/
def isLive (slots : Slots α) (i : Nat) : Bool := (slots.getD i none).isSome

/-- The nearest slot with an operand on the left of the operator at `home`, which
stands between the slots `home` and `home + 1`. -/
def nearestLeft (slots : Slots α) : (home : Nat) → Option Nat
  | 0 => if slots.isLive 0 then some 0 else none
  | home + 1 => if slots.isLive (home + 1) then some (home + 1) else nearestLeft slots home

/-- The first slot with an operand among `count` slots from a place on. -/
def firstFrom (slots : Slots α) : (count place : Nat) → Option Nat
  | 0, _ => none
  | count + 1, place => if slots.isLive place then some place else firstFrom slots count (place + 1)

def nearestRight (slots : Slots α) (home : Nat) : Option Nat :=
  slots.firstFrom (slots.size - (home + 1)) (home + 1)

/-- The slots with a value in the left slot of an operator and nothing in the
right one. -/
def store (slots : Slots α) (left right : Nat) (value : α) : Slots α :=
  (slots.setIfInBounds right none).setIfInBounds left (some value)

def applyAt (apply : Operator → α → α → Except Fault α) (slots : Slots α)
    (op : Operator) (home : Nat) : Except Stop (Slots α) :=
  match slots.nearestLeft home, slots.nearestRight home with
  | some left, some right =>
    match slots.getD left none, slots.getD right none with
    | some x, some y =>
      match apply op x y with
      | .ok value => .ok (slots.store left right value)
      | .error cause => .error (.fault cause)
    | _, _ => .error (.missingOperand home)
  | _, _ => .error (.missingOperand home)

theorem isLive_iff {slots : Slots α} {i : Nat} :
    slots.isLive i = true ↔ ∃ x, slots[i]? = some (some x) := by
  cases hslot : slots[i]? with
  | none => simp [isLive, hslot]
  | some slot => simp [isLive, hslot, Option.isSome_iff_exists]

theorem isLive_store {slots : Slots α} {left right i : Nat} {value : α}
    (hlive : slots.isLive i = true) (hne : i ≠ right) :
    (slots.store left right value).isLive i = true := by
  obtain ⟨x, hx⟩ := isLive_iff.1 hlive
  have hlt : i < slots.size := (Array.getElem?_eq_some_iff.1 hx).1
  refine isLive_iff.2 ?_
  by_cases heq : left = i
  · exact ⟨value, by simp [store, heq, hlt]⟩
  · exact ⟨x, by simp [store, heq, Ne.symm hne, hx]⟩

theorem nearestLeft_eq {slots : Slots α} {left home : Nat} (hle : left ≤ home)
    (hleft : slots.isLive left = true)
    (hempty : ∀ i, left < i → i ≤ home → slots.isLive i = false) :
    slots.nearestLeft home = some left := by
  induction home with
  | zero =>
    obtain rfl : left = 0 := by omega
    simp [nearestLeft, hleft]
  | succ home ih =>
    by_cases heq : left = home + 1
    · simp [nearestLeft, ← heq, hleft]
    · rw [nearestLeft, hempty (home + 1) (by omega) (Nat.le_refl _)]
      exact ih (by omega) fun i hlt hi => hempty i hlt (by omega)

theorem exists_nearestLeft {slots : Slots α} (hfirst : slots.isLive 0 = true) (home : Nat) :
    ∃ left, left ≤ home ∧ slots.isLive left = true ∧ slots.nearestLeft home = some left := by
  induction home with
  | zero => exact ⟨0, Nat.le_refl 0, hfirst, by simp [nearestLeft, hfirst]⟩
  | succ home ih =>
    by_cases hlive : slots.isLive (home + 1) = true
    · exact ⟨home + 1, Nat.le_refl _, hlive, by simp [nearestLeft, hlive]⟩
    · obtain ⟨left, hle, hleft, hnear⟩ := ih
      exact ⟨left, by omega, hleft, by simp [nearestLeft, hlive, hnear]⟩

theorem nearestRight_of_isLive {slots : Slots α} {home : Nat}
    (hlive : slots.isLive (home + 1) = true) : slots.nearestRight home = some (home + 1) := by
  obtain ⟨x, hx⟩ := isLive_iff.1 hlive
  have hlt : home + 1 < slots.size := (Array.getElem?_eq_some_iff.1 hx).1
  obtain ⟨count, hcount⟩ := Nat.exists_eq_add_of_lt hlt
  have hsize : slots.size - (home + 1) = count + 1 := by omega
  simp [nearestRight, hsize, firstFrom, hlive]

/-- An operator whose neighbours have been found takes them. -/
theorem applyAt_eq (apply : Operator → α → α → Except Fault α) {slots : Slots α}
    {left home : Nat} {x y : α} (op : Operator) (hnear : slots.nearestLeft home = some left)
    (hx : slots[left]? = some (some x)) (hy : slots[home + 1]? = some (some y)) :
    slots.applyAt apply op home =
      match apply op x y with
      | .ok value => .ok (slots.store left (home + 1) value)
      | .error cause => .error (.fault cause) := by
  have hright := nearestRight_of_isLive (isLive_iff.2 ⟨y, hy⟩)
  simp [applyAt, hnear, hright, hx, hy]

end Slots

def operatorsOf (precedence : Precedence) (operators : List Operator) : List (Operator × Nat) :=
  operators.zipIdx.filter fun entry => entry.1.precedence = precedence

/-- All operators with their places, in the order in which they are applied. -/
def passOrder (operators : List Operator) : List (Operator × Nat) :=
  (operatorsOf .power operators).reverse ++ operatorsOf .multiplicative operators ++
    operatorsOf .additive operators

theorem mem_passOrder {operators : List Operator} {op : Operator} {home : Nat} :
    (op, home) ∈ passOrder operators ↔ operators[home]? = some op := by
  cases hprecedence : op.precedence <;>
    simp [passOrder, operatorsOf, List.mem_zipIdx_iff_getElem?, hprecedence]

section Reduction

variable (apply : Operator → α → α → Except Fault α)

def runPasses : List (Operator × Nat) → Slots α → Except Stop (Slots α)
  | [], slots => .ok slots
  | (op, home) :: entries, slots => do runPasses entries (← slots.applyAt apply op home)

/-- The operand that is left when all operators have been applied. -/
def survivor (slots : Slots α) : Except Stop α :=
  match slots.toList.filterMap id with
  | [value] => .ok value
  | [] => .error .nothingLeft
  | survivors => .error (.fault (.unreduced survivors.length))

def reduceSlots (chain : Chain α) : Except Stop α :=
  if chain.operands.length = chain.operators.length + 1 then do
    survivor (← runPasses apply (passOrder chain.operators) (chain.operands.map some).toArray)
  else .error (.fault (.operandCount chain.operators.length chain.operands.length))

/-- Passes over places that are all different, each with an operand right behind it,
never miss an operand. -/
theorem runPasses_cases {entries : List (Operator × Nat)} {slots : Slots α}
    (hplaces : entries.Pairwise fun a b => a.2 ≠ b.2) (hfirst : slots.isLive 0 = true)
    (hlive : ∀ entry ∈ entries, slots.isLive (entry.2 + 1) = true) :
    (∃ last, runPasses apply entries slots = .ok last ∧ last.isLive 0 = true) ∨
      ∃ cause, runPasses apply entries slots = .error (.fault cause) := by
  induction entries generalizing slots with
  | nil => exact .inl ⟨slots, rfl, hfirst⟩
  | cons entry entries ih =>
    obtain ⟨op, home⟩ := entry
    obtain ⟨hother, hplaces⟩ := List.pairwise_cons.1 hplaces
    obtain ⟨left, hle, hleft, hnear⟩ := Slots.exists_nearestLeft hfirst home
    obtain ⟨x, hx⟩ := Slots.isLive_iff.1 hleft
    obtain ⟨y, hy⟩ := Slots.isLive_iff.1 (hlive (op, home) (by simp))
    have hstep := Slots.applyAt_eq apply op hnear hx hy
    cases hvalue : apply op x y with
    | error cause =>
      refine .inr ⟨cause, ?_⟩
      simp [runPasses, hstep, hvalue, bind, Except.bind]
    | ok value =>
      have hfirst : (slots.store left (home + 1) value).isLive 0 = true :=
        Slots.isLive_store hfirst (by omega)
      have hrest := ih hplaces hfirst (by
        intro entry hmem
        have hne : home ≠ entry.2 := hother entry hmem
        exact Slots.isLive_store (hlive entry (by simp [hmem])) (by omega))
      simpa [runPasses, hstep, hvalue, bind, Except.bind] using hrest

end Reduction

theorem passOrder_places (operators : List Operator) :
    (passOrder operators).Pairwise fun a b => a.2 ≠ b.2 := by
  have hall : operators.zipIdx.Pairwise fun a b => a.2 ≠ b.2 := by
    rw [← List.pairwise_map, List.zipIdx_map_snd]
    exact List.nodup_range'
  have hdistinct : ∀ p q, p ≠ q → ∀ a ∈ operatorsOf p operators, ∀ b ∈ operatorsOf q operators,
      a.2 ≠ b.2 := by
    intro p q hne a ha b hb heq
    simp [operatorsOf, List.mem_zipIdx_iff_getElem?] at ha hb
    have : a.1 = b.1 := by simpa [heq, hb.1] using ha.1.symm
    exact hne (by rw [← ha.2, ← hb.2, this])
  simp only [passOrder, List.pairwise_append, List.mem_append, List.mem_reverse]
  refine ⟨⟨?_, hall.filter _, hdistinct _ _ (by decide)⟩, hall.filter _, ?_⟩
  · exact List.pairwise_reverse.2 ((hall.filter _).imp Ne.symm)
  · rintro a (ha | ha)
    · exact hdistinct _ _ (by decide) a ha
    · exact hdistinct _ _ (by decide) a ha

section Reduction

variable (apply : Operator → α → α → Except Fault α) (chain : Chain α)

theorem reduceSlots_cases :
    (∃ value, reduceSlots apply chain = .ok value) ∨
      ∃ cause, reduceSlots apply chain = .error (.fault cause) := by
  unfold reduceSlots
  split
  · next hlength =>
    have hlive : ∀ i ≤ chain.operators.length,
        Slots.isLive (chain.operands.map some).toArray i = true := by
      intro i hi
      have hlt : i < chain.operands.length := by omega
      exact Slots.isLive_iff.2 ⟨chain.operands[i], by simp [hlt]⟩
    have hpasses := runPasses_cases apply (passOrder_places chain.operators)
      (hlive 0 (by omega)) (by
        intro entry hmem
        have := (List.getElem?_eq_some_iff.1 (mem_passOrder.1 hmem)).1
        exact hlive _ (by omega))
    obtain ⟨last, hlast, hfirst⟩ | ⟨cause, hcause⟩ := hpasses
    · obtain ⟨x, hx⟩ := Slots.isLive_iff.1 hfirst
      have hmem : x ∈ last.toList.filterMap id :=
        List.mem_filterMap.2 ⟨some x, (Array.mem_of_getElem? hx).val, rfl⟩
      simp only [hlast, bind, Except.bind, survivor]
      split
      · exact .inl ⟨_, rfl⟩
      · next hnone =>
        rw [hnone] at hmem
        cases hmem
      · exact .inr ⟨_, rfl⟩
    · exact .inr ⟨cause, by simp [hcause, bind, Except.bind]⟩
  · exact .inr ⟨_, rfl⟩

/-- No operator of a chain is ever without an operand on one side. -/
theorem reduceSlots_ne_missingOperand (home : Nat) :
    reduceSlots apply chain ≠ .error (.missingOperand home) := by
  obtain ⟨value, h⟩ | ⟨cause, h⟩ := reduceSlots_cases apply chain <;> simp [h]

/-- An operand is left of every chain. -/
theorem reduceSlots_ne_nothingLeft : reduceSlots apply chain ≠ .error .nothingLeft := by
  obtain ⟨value, h⟩ | ⟨cause, h⟩ := reduceSlots_cases apply chain <;> simp [h]

def reduce : Except Fault α :=
  match h : reduceSlots apply chain with
  | .ok value => .ok value
  | .error (.fault cause) => .error cause
  | .error (.missingOperand home) => absurd h (reduceSlots_ne_missingOperand apply chain home)
  | .error .nothingLeft => absurd h (reduceSlots_ne_nothingLeft apply chain)

variable {apply chain}

theorem reduce_eq_ok_iff {value : α} :
    reduce apply chain = .ok value ↔ reduceSlots apply chain = .ok value := by
  unfold reduce
  split
  · simp_all
  · simp_all
  · next h => exact absurd h (reduceSlots_ne_missingOperand apply chain _)
  · next h => exact absurd h (reduceSlots_ne_nothingLeft apply chain)

theorem reduce_eq_error_iff {cause : Fault} :
    reduce apply chain = .error cause ↔ reduceSlots apply chain = .error (.fault cause) := by
  unfold reduce
  split
  · simp_all
  · simp_all
  · next h => exact absurd h (reduceSlots_ne_missingOperand apply chain _)
  · next h => exact absurd h (reduceSlots_ne_nothingLeft apply chain)

end Reduction

end MatrixCalculator.Chain
