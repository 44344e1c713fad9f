import MatrixCalculator.Proofs.Chain.PrecedenceTree
import MatrixCalculator.Proofs.Operator

/-!
# Reductions and precedence trees

A reduction in place works on slots, and what a slot holds in between depends on
which operators have been applied so far.  The invariant says it all: the applied
operators cut the chain into blocks, the first slot of a block holds the value of
the precedence tree of the block, and its other slots are empty.  The operator that
comes next stands between two blocks, which are the two sides of the tree of their
union.
-/

namespace MatrixCalculator.Chain

open Outcome

variable {α : Type} {apply : Operator → α → α → Except Fault α}
variable {first : α} {links : Links α} {applied : List Nat} {home low high : Nat}
variable {slots : Slots α}

/-! ## Blocks -/

/-- A longest stretch whose operators have all been applied. -/
structure IsBlock (applied : List Nat) (low high : Nat) : Prop where
  low_le_high : low ≤ high
  inside : ∀ i, low ≤ i → i < high → i ∈ applied
  low_end : ∀ i, i + 1 = low → i ∉ applied
  high_end : high ∉ applied

theorem exists_low_end (applied : List Nat) (low : Nat) :
    ∃ low' ≤ low, (∀ i, low' ≤ i → i < low → i ∈ applied) ∧ ∀ i, i + 1 = low' → i ∉ applied := by
  induction low with
  | zero => exact ⟨0, le_rfl, fun i hi hlt => by omega, fun i hi => by omega⟩
  | succ low ih =>
    by_cases hmem : low ∈ applied
    · obtain ⟨low', hle, hinside, hend⟩ := ih
      refine ⟨low', by omega, fun i hi hlt => ?_, hend⟩
      by_cases heq : i = low
      · rwa [heq]
      · exact hinside i hi (by omega)
    · refine ⟨low + 1, le_rfl, fun i hi hlt => by omega, fun i hi => ?_⟩
      rwa [show i = low by omega]

theorem exists_high_end {count : Nat} (hplaces : ∀ i ∈ applied, i < count) (hle : high ≤ count) :
    ∃ high' ≤ count, high ≤ high' ∧ (∀ i, high ≤ i → i < high' → i ∈ applied) ∧
      high' ∉ applied := by
  induction hrest : count - high generalizing high with
  | zero =>
    refine ⟨count, le_rfl, hle, fun i hi hlt => by omega, fun hmem => ?_⟩
    exact (hplaces count hmem).false
  | succ n ih =>
    by_cases hmem : high ∈ applied
    · have hlt := hplaces high hmem
      have hfewer : count - (high + 1) = n := by omega
      obtain ⟨high', hbound, hle', hinside, hend⟩ := ih hlt hfewer
      refine ⟨high', hbound, by omega, fun i hi hlt' => ?_, hend⟩
      by_cases heq : i = high
      · rwa [heq]
      · exact hinside i (by omega) hlt'
    · exact ⟨high, hle, le_rfl, fun i hi hlt => by omega, hmem⟩

/-- Every stretch of applied operators lies in a block. -/
theorem exists_block {count : Nat} (hplaces : ∀ i ∈ applied, i < count) (hle : low ≤ high)
    (hhigh : high ≤ count) (hinside : ∀ i, low ≤ i → i < high → i ∈ applied) :
    ∃ low' high', low' ≤ low ∧ high ≤ high' ∧ high' ≤ count ∧ IsBlock applied low' high' := by
  obtain ⟨low', hlow', hbelow, hlowEnd⟩ := exists_low_end applied low
  obtain ⟨high', hcount, hhigh', habove, hhighEnd⟩ := exists_high_end hplaces hhigh
  refine ⟨low', high', hlow', hhigh', hcount, by omega, fun i hi hlt => ?_, hlowEnd, hhighEnd⟩
  by_cases hcase : i < low
  · exact hbelow i hi hcase
  · by_cases hcase' : i < high
    · exact hinside i (by omega) hcase'
    · exact habove i (by omega) hlt

/-- One more operator merges the blocks on both sides of it and no others. -/
theorem IsBlock.eq_or_isBlock (hlow : IsBlock applied low home)
    (hhigh : IsBlock applied (home + 1) high) {low' high' : Nat}
    (hblock : IsBlock (applied ++ [home]) low' high') :
    low' = low ∧ high' = high ∨
      IsBlock applied low' high' ∧ low' ≠ low ∧ low' ≠ home + 1 := by
  have hlowHome := hlow.low_le_high
  have hhomeHigh := hhigh.low_le_high
  obtain ⟨hle, hinside, hlowEnd, hhighEnd⟩ := hblock
  simp only [List.mem_append, List.mem_singleton, not_or] at hinside hlowEnd hhighEnd
  by_cases hmerged : low' ≤ home ∧ home < high'
  · left
    constructor
    · by_contra hne
      rcases Nat.lt_or_gt_of_ne hne with hlt | hgt
      · have hout := hlow.low_end (low - 1) (by omega)
        exact hout ((hinside (low - 1) (by omega) (by omega)).resolve_right (by omega))
      · exact (hlowEnd (low' - 1) (by omega)).1 (hlow.inside _ (by omega) (by omega))
    · by_contra hne
      rcases Nat.lt_or_gt_of_ne hne with hlt | hgt
      · exact hhighEnd.1 (hhigh.inside high' (by omega) hlt)
      · exact hhigh.high_end ((hinside high (by omega) hgt).resolve_right (by omega))
  · right
    refine ⟨⟨hle, fun i hi hlt => ?_, fun i hi => (hlowEnd i hi).1, hhighEnd.1⟩, ?_, ?_⟩
    · exact (hinside i hi hlt).resolve_right (by omega)
    · rintro rfl
      have hne := hhighEnd.2
      exact hhighEnd.1 (hlow.inside high' hle (by omega))
    · exact fun heq => (hlowEnd home heq.symm).2 rfl

/-! ## Stored values -/

namespace Slots

variable {left right i : Nat} {value : α}

theorem getElem?_store_left (hleft : left < slots.size) :
    (slots.store left right value)[left]? = some (some value) := by
  simp [store, hleft]

theorem getElem?_store_right (hright : right < slots.size) (hne : left ≠ right) :
    (slots.store left right value)[right]? = some none := by
  simp [store, hright, hne]

theorem getElem?_store_of_ne (hleft : i ≠ left) (hright : i ≠ right) :
    (slots.store left right value)[i]? = slots[i]? := by
  simp [store, hleft.symm, hright.symm]

end Slots

/-! ## The invariant -/

/-- What the slots of a chain hold when some of its operators have been applied. -/
structure Describes (apply : Operator → α → α → Except Fault α) (first : α) (links : Links α)
    (applied : List Nat) (slots : Slots α) : Prop where
  size_eq : slots.size = links.length + 1
  places : ∀ i ∈ applied, i < links.length
  block : ∀ low high, IsBlock applied low high → high ≤ links.length →
    ∃ value, slots[low]? = some (some value) ∧
      (treeBetween first links low high).eval apply = .ok value
  taken : ∀ i ∈ applied, slots[i + 1]? = some none

theorem describes_start (apply : Operator → α → α → Except Fault α) (first : α)
    (links : Links α) :
    Describes apply first links [] ((ofLinks first links).operands.map some).toArray := by
  refine ⟨by simp [ofLinks], by simp, fun low high hblock hhigh => ?_, by simp⟩
  obtain rfl : low = high := by
    by_contra hne
    exact absurd (hblock.inside low le_rfl (by have := hblock.low_le_high; omega)) (by simp)
  have hplace : low < (first :: links.map Prod.snd).length := by simp; omega
  refine ⟨operandAt first links low, ?_, by rw [treeBetween_self, Tree.eval]⟩
  rw [List.getElem?_toArray, List.getElem?_map]
  simp only [ofLinks, operandAt, List.getElem?_eq_getElem hplace, Option.map_some, Option.getD_some]

/-- What the next operator finds: the blocks on both sides. -/
theorem Describes.applyAt_eq (hslots : Describes apply first links applied slots)
    (hhome : home < links.length) (hnew : home ∉ applied) (op : Operator) :
    ∃ low high x y, IsBlock applied low home ∧ IsBlock applied (home + 1) high ∧
      high ≤ links.length ∧
      (treeBetween first links low home).eval apply = .ok x ∧
      (treeBetween first links (home + 1) high).eval apply = .ok y ∧
      slots.applyAt apply op home =
        match apply op x y with
        | .ok value => .ok (slots.store low (home + 1) value)
        | .error cause => .error (.fault cause) := by
  obtain ⟨low, middle, hlow, hmiddle, -, hbelow⟩ :=
    exists_block hslots.places (le_refl home) hhome.le fun i hi hlt => by omega
  obtain rfl : home = middle := by
    by_contra hne
    exact hnew (hbelow.inside home hlow (by omega))
  obtain ⟨middle, high, hmiddle', hhigh', hhigh, habove⟩ :=
    exists_block hslots.places (le_refl (home + 1)) hhome fun i hi hlt => by omega
  obtain rfl : middle = home + 1 := by
    by_contra hne
    exact hnew (habove.inside home (by omega) hhigh')
  obtain ⟨x, hx, hxvalue⟩ := hslots.block low home hbelow hhome.le
  obtain ⟨y, hy, hyvalue⟩ := hslots.block (home + 1) high habove hhigh
  refine ⟨low, high, x, y, hbelow, habove, hhigh, hxvalue, hyvalue, ?_⟩
  refine Slots.applyAt_eq apply op ?_ hx hy
  refine Slots.nearestLeft_eq hbelow.low_le_high (Slots.isLive_iff.2 ⟨x, hx⟩) fun i hlt hi => ?_
  obtain ⟨i, rfl⟩ : ∃ j, i = j + 1 := ⟨i - 1, by omega⟩
  have htaken := hslots.taken i (hbelow.inside i (by omega) (by omega))
  simp [Slots.isLive, htaken]

/-- Applying the next operator keeps the invariant. -/
theorem Describes.store (hslots : Describes apply first links applied slots)
    (hhome : home < links.length) (hlow : IsBlock applied low home)
    (hhigh : IsBlock applied (home + 1) high) (hle : high ≤ links.length) {value : α}
    (hvalue : (treeBetween first links low high).eval apply = .ok value) :
    Describes apply first links (applied ++ [home]) (slots.store low (home + 1) value) := by
  have hlowHome := hlow.low_le_high
  have hsize := hslots.size_eq
  refine ⟨by simp [Slots.store, hsize], ?_, ?_, ?_⟩
  · intro i hi
    rcases List.mem_append.1 hi with hi | hi
    · exact hslots.places i hi
    · rwa [List.mem_singleton.1 hi]
  · intro low' high' hblock hhigh'
    rcases hlow.eq_or_isBlock hhigh hblock with ⟨rfl, rfl⟩ | ⟨hold, hneLeft, hneRight⟩
    · exact ⟨value, Slots.getElem?_store_left (by omega), hvalue⟩
    · obtain ⟨kept, hkept, hkeptValue⟩ := hslots.block low' high' hold hhigh'
      exact ⟨kept, by rw [Slots.getElem?_store_of_ne hneLeft hneRight, hkept], hkeptValue⟩
  · intro i hi
    by_cases heq : i = home
    · rw [heq, Slots.getElem?_store_right (by omega) (by omega)]
    · have hi := (List.mem_append.1 hi).resolve_right (by simpa using heq)
      have hneLeft : i + 1 ≠ low := fun h => hlow.low_end i h hi
      rw [Slots.getElem?_store_of_ne hneLeft (by omega), hslots.taken i hi]

/-- When all operators have been applied, the value of the tree is all that is left. -/
theorem Describes.survivor_eq (hslots : Describes apply first links applied slots)
    (hall : ∀ i < links.length, i ∈ applied) :
    ∃ value, survivor slots = .ok value ∧ (tree 0 first links).eval apply = .ok value := by
  have hwhole : IsBlock applied 0 links.length :=
    ⟨Nat.zero_le _, fun i _ hlt => hall i hlt, fun i hi => by omega,
      fun hmem => (hslots.places _ hmem).false⟩
  obtain ⟨value, hslot, hvalue⟩ := hslots.block 0 links.length hwhole le_rfl
  rw [treeBetween_whole] at hvalue
  refine ⟨value, ?_, hvalue⟩
  have hlist : slots.toList = some value :: List.replicate links.length none := by
    refine List.ext_getElem? fun i => ?_
    rw [Array.getElem?_toList]
    cases i with
    | zero => simpa using hslot
    | succ i =>
      by_cases hlt : i < links.length
      · simpa [hlt] using hslots.taken i (hall i hlt)
      · have hsize := hslots.size_eq
        rw [Array.getElem?_eq_none (by omega)]
        simp [hlt]
  simp [survivor, hlist]

/-! ## Runs -/

/-- Whether an application in a tree fails while all that come before it have values. -/
def FirstFailure (apply : Operator → α → α → Except Fault α) (t : Tree α) (cause : Fault) :
    Prop :=
  ∃ home op left right x y, .application home op left right ∈ t.subtrees ∧
    left.eval apply = .ok x ∧ right.eval apply = .ok y ∧ apply op x y = .error cause ∧
    ∀ home' op' left' right', .application home' op' left' right' ∈ t.subtrees →
      AppliedBefore (op', home') (op, home) →
      ∃ value, (Tree.application home' op' left' right').eval apply = .ok value

variable {op : Operator} {front entries : List (Operator × Nat)}

theorem entryAt_mem_passOrder (hhome : home < links.length) :
    entryAt links home ∈ passOrder (links.map Prod.fst) := by
  rw [entryAt, mem_passOrder, List.getD_eq_getElem?_getD]
  simp [List.getElem?_eq_getElem hhome]

theorem entry_eq_of_mem_passOrder (hmem : (op, home) ∈ passOrder (links.map Prod.fst)) :
    home < links.length ∧ (op, home) = entryAt links home := by
  have hplace := mem_passOrder.1 hmem
  have hlt : home < links.length := by
    simpa using (List.getElem?_eq_some_iff.1 hplace).1
  exact ⟨hlt, by rw [entryAt, List.getD_eq_getElem?_getD, hplace, Option.getD_some]⟩

/-- The operators in front of an operator are those that are applied before it. -/
theorem mem_front_iff (horder : passOrder (links.map Prod.fst) = front ++ (op, home) :: entries)
    {i : Nat} (hlt : i < links.length) :
    i ∈ front.map Prod.snd ↔ AppliedBefore (entryAt links i) (entryAt links home) := by
  have hsorted := passOrder_pairwise (links.map Prod.fst)
  have hentry : ∀ entry ∈ front ++ (op, home) :: entries, entry = entryAt links entry.2 := by
    intro entry hmem
    rw [← horder] at hmem
    exact (entry_eq_of_mem_passOrder hmem).2
  have hhome := hentry (op, home) (by simp)
  rw [horder, List.pairwise_append, List.pairwise_cons] at hsorted
  obtain ⟨-, ⟨hbehind, -⟩, hfront⟩ := hsorted
  rw [← hhome]
  constructor
  · intro hmem
    obtain ⟨entry, hentryMem, rfl⟩ := List.mem_map.1 hmem
    rw [← hentry entry (by simp [hentryMem])]
    exact hfront entry hentryMem (op, home) (by simp)
  · intro hbefore
    have hmem := entryAt_mem_passOrder hlt
    rw [horder, List.mem_append, List.mem_cons] at hmem
    rcases hmem with hmem | heq | hmem
    · exact List.mem_map.2 ⟨_, hmem, rfl⟩
    · exact absurd heq hbefore.ne
    · exact absurd hbefore (hbehind _ hmem).asymm

/-- The operator that comes next spans the blocks on both sides of it. -/
theorem spans_of_blocks (horder : passOrder (links.map Prod.fst) = front ++ (op, home) :: entries)
    (hlow : IsBlock (front.map Prod.snd) low home)
    (hhigh : IsBlock (front.map Prod.snd) (home + 1) high) (hle : high ≤ links.length) :
    Spans links home low high 0 links.length := by
  have hlowHome := hlow.low_le_high
  have hhomeHigh := hhigh.low_le_high
  have hlater : ∀ i < links.length, i ≠ home → i ∉ front.map Prod.snd →
      AppliedBefore (entryAt links home) (entryAt links i) := by
    intro i hlt hne hnew
    rw [mem_front_iff horder hlt] at hnew
    exact (appliedBefore_or (by simpa [entryAt] using hne)).resolve_left hnew
  refine ⟨⟨hlowHome, by omega, fun i hi hlt hne => ?_⟩, Nat.zero_le _, hle, fun i hi _ => ?_,
    fun hlt => ?_⟩
  · rw [← mem_front_iff horder (by omega)]
    by_cases hcase : i < home
    · exact hlow.inside i hi hcase
    · exact hhigh.inside i (by omega) hlt
  · exact hlater i (by omega) (by omega) (hlow.low_end i hi)
  · exact hlater high hlt (by omega) hhigh.high_end

/-- While the invariant holds, all applications before the next operator have values. -/
theorem Describes.eval_of_appliedBefore
    (horder : passOrder (links.map Prod.fst) = front ++ (op, home) :: entries)
    (hslots : Describes apply first links (front.map Prod.snd) slots) {place : Nat}
    {other : Operator} {left right : Tree α}
    (hmem : .application place other left right ∈ (tree 0 first links).subtrees)
    (hbefore : AppliedBefore (other, place) (op, home)) :
    ∃ value, (Tree.application place other left right).eval apply = .ok value := by
  rw [← treeBetween_whole] at hmem
  obtain ⟨low, high, hspans, htree⟩ := spans_of_mem_subtrees le_rfl hmem
  obtain ⟨hlow, hhigh, hlast⟩ := hspans.isLast
  have hbound := hspans.le_outerHigh
  have hhome : (op, home) = entryAt links home :=
    (entry_eq_of_mem_passOrder (by rw [horder]; simp)).2
  have hother : other = (entryAt links place).1 := by
    rw [treeBetween_eq hspans.isLast hbound] at htree
    exact (Tree.application.inj htree).2.1
  have hplace : AppliedBefore (entryAt links place) (entryAt links home) := by
    rw [← hhome]
    rw [hother] at hbefore
    exact hbefore
  have hinside : ∀ i, low ≤ i → i < high → i ∈ front.map Prod.snd := by
    intro i hi hlt
    rw [mem_front_iff horder (by omega)]
    by_cases heq : i = place
    · rwa [heq]
    · exact (hlast i hi hlt heq).trans hplace
  -- The stretch of the application lies in a block, and the tree of a block has a value.
  obtain ⟨low', high', hlow', hhigh', hbound', hblock⟩ :=
    exists_block hslots.places (by omega) hbound hinside
  obtain ⟨value, -, hvalue⟩ := hslots.block low' high' hblock hbound'
  have hinner : Spans links place low high low' high' :=
    ⟨hspans.isLast, hlow', hhigh', fun i hi _ => hspans.before_low i hi (Nat.zero_le i),
      fun hlt => hspans.before_high (by omega)⟩
  rw [htree]
  exact Tree.eval_of_mem_subtrees (mem_subtrees_of_spans hinner hbound') ⟨value, hvalue⟩

/-- What remains of a run from a state that the invariant describes. -/
theorem Describes.runPasses_cases
    (horder : passOrder (links.map Prod.fst) = front ++ entries)
    (hslots : Describes apply first links (front.map Prod.snd) slots) :
    (∃ last, runPasses apply entries slots = .ok last ∧
        Describes apply first links ((passOrder (links.map Prod.fst)).map Prod.snd) last) ∨
      ∃ cause, runPasses apply entries slots = .error (.fault cause) ∧
        FirstFailure apply (tree 0 first links) cause := by
  induction entries generalizing front slots with
  | nil =>
    rw [List.append_nil] at horder
    rw [horder]
    exact .inl ⟨slots, rfl, hslots⟩
  | cons entry entries ih =>
    obtain ⟨op, home⟩ := entry
    obtain ⟨hhome, hentry⟩ := entry_eq_of_mem_passOrder
      (show (op, home) ∈ passOrder (links.map Prod.fst) by rw [horder]; simp)
    have hnew : home ∉ front.map Prod.snd := fun hmem =>
      ((mem_front_iff horder hhome).1 hmem).ne rfl
    obtain ⟨low, high, x, y, hbelow, habove, hhigh, hx, hy, hstep⟩ :=
      hslots.applyAt_eq hhome hnew op
    have hspans := spans_of_blocks horder hbelow habove hhigh
    have htree : treeBetween first links low high = _ := treeBetween_eq hspans.isLast hhigh
    rw [← hentry] at htree
    cases hvalue : apply op x y with
    | error cause =>
      refine .inr ⟨cause, by simp [runPasses, hstep, hvalue], home, op, _, _, x, y, ?_, hx, hy,
        hvalue, fun place other left right hmem hbefore =>
          hslots.eval_of_appliedBefore horder hmem hbefore⟩
      rw [← htree, ← treeBetween_whole]
      exact mem_subtrees_of_spans hspans le_rfl
    | ok value =>
      have hnext : (treeBetween first links low high).eval apply = .ok value := by
        simp [htree, Tree.eval, hx, hy, hvalue]
      have hstored := hslots.store hhome hbelow habove hhigh hnext
      have hfront : (front ++ [(op, home)]).map Prod.snd = front.map Prod.snd ++ [home] := by
        simp
      rw [← hfront] at hstored
      simpa [runPasses, hstep, hvalue] using ih (by simp [horder]) hstored

variable (apply first links)

/-- A reduction finds the value of the precedence tree or its first failure. -/
theorem reduce_ofLinks_cases :
    (∃ value, reduce apply (ofLinks first links) = .ok value ∧
        (tree 0 first links).eval apply = .ok value) ∨
      ∃ cause, reduce apply (ofLinks first links) = .error cause ∧
        FirstFailure apply (tree 0 first links) cause := by
  have hstart : Describes apply first links (([] : List (Operator × Nat)).map Prod.snd) _ :=
    describes_start apply first links
  have hrun := hstart.runPasses_cases (List.nil_append _).symm
  have hlength : (ofLinks first links).operands.length =
      (ofLinks first links).operators.length + 1 := by simp [ofLinks]
  rcases hrun with ⟨last, hlast, hslots⟩ | ⟨cause, hcause, hfailure⟩
  · have hall : ∀ i < links.length, i ∈ (passOrder (links.map Prod.fst)).map Prod.snd :=
      fun i hlt => List.mem_map.2 ⟨_, entryAt_mem_passOrder hlt, rfl⟩
    obtain ⟨value, hvalue, htree⟩ := hslots.survivor_eq hall
    refine .inl ⟨value, ?_, htree⟩
    rw [reduce_eq_ok_iff, reduceSlots, if_pos hlength]
    exact bind_eq_ok_iff.2 ⟨last, hlast, hvalue⟩
  · refine .inr ⟨cause, ?_, hfailure⟩
    rw [reduce_eq_error_iff, reduceSlots, if_pos hlength]
    exact congrArg (· >>= survivor) hcause

variable {apply first links} {t : Tree α} {cause : Fault}

/-- A tree with a failing application has no value. -/
theorem FirstFailure.eval_ne_ok (hfailure : FirstFailure apply t cause) (value : α) :
    t.eval apply ≠ .ok value := by
  intro hvalue
  obtain ⟨home, op, left, right, x, y, hmem, hx, hy, herror, -⟩ := hfailure
  obtain ⟨part, hpart⟩ := Tree.eval_of_mem_subtrees hmem ⟨value, hvalue⟩
  simp [Tree.eval, hx, hy, herror] at hpart

theorem reduce_ofLinks_eq_ok_iff {value : α} :
    reduce apply (ofLinks first links) = .ok value ↔
      (tree 0 first links).eval apply = .ok value := by
  rcases reduce_ofLinks_cases apply first links with
    ⟨found, hreduce, htree⟩ | ⟨cause, hreduce, hfailure⟩
  · rw [hreduce, htree]
  · rw [hreduce]
    exact ⟨nofun, fun htree => absurd htree (hfailure.eval_ne_ok value)⟩

theorem firstFailure_of_reduce_eq_error
    (herror : reduce apply (ofLinks first links) = .error cause) :
    FirstFailure apply (tree 0 first links) cause := by
  rcases reduce_ofLinks_cases apply first links with
    ⟨found, hreduce, -⟩ | ⟨found, hreduce, hfailure⟩
  · rw [hreduce] at herror
    cases herror
  · rw [hreduce] at herror
    cases herror
    exact hfailure

/-- Two operands with an operator between them. -/
theorem reduce_pair (apply : Operator → α → α → Except Fault α) (op : Operator) (x y : α) :
    reduce apply ⟨[x, y], [op]⟩ = apply op x y := by
  have htree : tree 0 x [(op, y)] = .application 0 op (.operand x) (.operand y) := by
    have hroot : rootPlace ([(op, y)].map Prod.fst) = 0 := by cases op <;> rfl
    rw [tree_eq rfl hroot, List.take_zero, tree_nil]
    simp
  change reduce apply (ofLinks x [(op, y)]) = _
  rcases reduce_ofLinks_cases apply x [(op, y)] with
    ⟨value, hreduce, hvalue⟩ | ⟨cause, hreduce, hfailure⟩
  · rw [htree] at hvalue
    rw [hreduce, ← hvalue]
    rfl
  · obtain ⟨home, found, left, right, a, b, hmem, ha, hb, herror, -⟩ := hfailure
    simp only [htree, Tree.subtrees, List.mem_cons, List.mem_append, List.not_mem_nil, or_false,
      reduceCtorEq, Tree.application.injEq] at hmem
    obtain ⟨-, rfl, rfl, rfl⟩ := hmem
    cases ha
    cases hb
    rw [hreduce, herror]

/-- The reduction of a chain with one operand more than operators has the value of its
precedence tree, or the fault of the first application that fails; no operand is ever
missing or left over.  Any other chain is refused. -/
theorem reduce_eq_precedence_tree [Matrix.Routines] (chain : Chain Operand) :
    if chain.operands.length = chain.operators.length + 1 then
      ∃ first links, chain = ofLinks first links ∧
        (∀ value, reduce Operator.apply chain = .ok value ↔
          (tree 0 first links).eval Operator.apply = .ok value) ∧
        (∀ cause, reduce Operator.apply chain = .error cause →
          FirstFailure Operator.apply (tree 0 first links) cause) ∧
        (∀ survivors, reduce Operator.apply chain ≠ .error (.unreduced survivors)) ∧
        (∀ home, reduceSlots Operator.apply chain ≠ .error (.missingOperand home)) ∧
        reduceSlots Operator.apply chain ≠ .error .nothingLeft
    else
      reduce Operator.apply chain =
        .error (.operandCount chain.operators.length chain.operands.length) := by
  split
  · next hlength =>
    obtain ⟨first, links, rfl⟩ := exists_ofLinks hlength
    refine ⟨first, links, rfl, fun value => reduce_ofLinks_eq_ok_iff,
      fun cause => firstFailure_of_reduce_eq_error, fun survivors herror => ?_,
      reduceSlots_ne_missingOperand _ _, reduceSlots_ne_nothingLeft _ _⟩
    obtain ⟨home, op, left, right, x, y, -, -, -, hcause, -⟩ :=
      firstFailure_of_reduce_eq_error herror
    exact Operator.isOperandFault_of_apply hcause
  · next hlength => rw [reduce_eq_error_iff, reduceSlots, if_neg hlength]

end MatrixCalculator.Chain
