import MatrixCalculator.Expression.Evaluation
import MatrixCalculator.Proofs.Chain.Reduction
import MatrixCalculator.Proofs.Chain.Split
import MatrixCalculator.Proofs.Operator

/-!
# What splitting a text finds

Splitting cuts a text at its operators and keeps everything else.  Joining the operands by
the symbols of the operators leads back to the text, so each operand has its place in the
text, and what stands in front of it there decides which hyphens are operators.
-/

namespace MatrixCalculator.Chain

open Outcome Text

/-! ## Joining -/

/-- The text in front of an operand: the operands before it, each with the symbol of the
operator behind it. -/
def front (chain : Chain Text) (i : Nat) : Text :=
  ((List.zipWith (fun operand op => operand ++ op.symbol) chain.operands
    chain.operators).take i).flatten

/-- The operands with the symbols of the operators between them. -/
def join (chain : Chain Text) : Text :=
  chain.front chain.operators.length ++ chain.operands.getLast?.getD []

section Joining

variable {first next : Text} {op : Operator} {links : Links Text}

@[simp]
theorem front_zero (chain : Chain Text) : chain.front 0 = [] := rfl

theorem front_cons (i : Nat) :
    (ofLinks first ((op, next) :: links)).front (i + 1) =
      first ++ op.symbol ++ (ofLinks next links).front i := rfl

theorem join_nil : (ofLinks first []).join = first := rfl

theorem join_cons :
    (ofLinks first ((op, next) :: links)).join =
      first ++ op.symbol ++ (ofLinks next links).join := by
  have hlast : (ofLinks first ((op, next) :: links)).operands.getLast? =
      (ofLinks next links).operands.getLast? := List.getLast?_cons_cons
  rw [join, join, hlast, show (ofLinks first ((op, next) :: links)).operators.length =
    (ofLinks next links).operators.length + 1 from rfl, front_cons, List.append_assoc]

/-- Every operand stands in the text behind its front. -/
theorem isPrefix_join {i : Nat} {operand : Text}
    (hoperand : (ofLinks first links).operands[i]? = some operand) :
    (ofLinks first links).front i ++ operand <+: (ofLinks first links).join := by
  induction links generalizing first i with
  | nil =>
    obtain ⟨rfl, rfl⟩ : i = 0 ∧ first = operand := by
      cases i <;> simp_all [ofLinks]
    exact List.prefix_rfl
  | cons link links ih =>
    obtain ⟨op, next⟩ := link
    rw [join_cons]
    cases i with
    | zero =>
      obtain rfl : first = operand := Option.some.inj hoperand
      rw [front_zero, List.nil_append, List.append_assoc]
      exact List.prefix_append _ _
    | succ i =>
      rw [front_cons, List.append_assoc]
      exact (List.prefix_append_right_inj _).2 (ih hoperand)

end Joining

/-! ## Operands without operators -/

/-- Whether a text behind a character is free of operators: no character of it stands for one,
it does not hold the operator that is a word, and a hyphen in it does not follow an operand. -/
structure IsFree (previous : Option Char) (text : Text) : Prop where
  chars : ∀ c ∈ text, Operator.ofChar? c = none
  word : ¬Symbol.modulo <:+: text
  hyphens : Follows (fun previous c => c = '-' → endsOperand previous = false) previous text

/-- Whether the operands of a chain behind a character are free of operators, and every hyphen
between them follows an operand. -/
def Separates (previous : Option Char) (first : Text) : Links Text → Prop
  | [] => IsFree previous first
  | (op, next) :: links =>
    IsFree previous first ∧ (op = .sub → endsOperand (ending previous first) = true) ∧
      Separates (ending previous (first ++ op.symbol)) next links

section Splitting

variable {previous : Option Char} {c : Char} {text first operand : Text} {op : Operator}
  {links : Links Text}

theorem isFree_nil : IsFree previous [] := ⟨by simp, by decide, trivial⟩

theorem Separates.isFree (hseparates : Separates previous first links) :
    IsFree previous first := by
  cases links with
  | nil => exact hseparates
  | cons link links => exact hseparates.1

theorem Separates.cons (hseparates : Separates (some c) first links)
    (hfree : IsFree previous (c :: first)) : Separates previous (c :: first) links := by
  cases links with
  | nil => exact hfree
  | cons link links => exact ⟨hfree, hseparates.2⟩

/-- An operator that a character is found to be is written as that character, and a hyphen is
only found behind an operand. -/
theorem symbol_of_operatorAt? (hop : operatorAt? previous c = some op) :
    op.symbol = [c] ∧ (op = .sub → endsOperand previous = true) := by
  rw [operatorAt?] at hop
  split at hop
  · next hhyphen =>
    cases hop
    exact ⟨by rw [hhyphen.1]; rfl, fun _ => hhyphen.2⟩
  · rw [Operator.ofChar?] at hop
    split_ifs at hop with hpow hmul hdiv hadd <;> cases hop
    · exact ⟨by rw [hpow]; rfl, nofun⟩
    · exact ⟨by rw [hmul]; rfl, nofun⟩
    · exact ⟨by rw [hdiv]; rfl, nofun⟩
    · exact ⟨by rw [hadd]; rfl, nofun⟩

theorem IsFree.cons (hfree : IsFree (some c) first) (hnone : operatorAt? previous c = none)
    (hword : ¬Symbol.modulo <+: c :: first) : IsFree previous (c :: first) := by
  rw [operatorAt?] at hnone
  split at hnone
  · cases hnone
  next hhyphen =>
  refine ⟨List.forall_mem_cons.2 ⟨hnone, hfree.chars⟩, ?_, fun hc => ?_, hfree.hyphens⟩
  · rw [List.infix_cons_iff]
    exact not_or.2 ⟨hword, hfree.word⟩
  · exact Bool.eq_false_of_not_eq_true fun hends => hhyphen ⟨hc, hends⟩

/-- Splitting cuts the text at the operators of a chain and nowhere else. -/
theorem exists_splitAfter_eq (previous : Option Char) (text : Text) :
    ∃ first links, splitAfter previous text = ofLinks first links ∧
      (ofLinks first links).join = text ∧ Separates previous first links := by
  induction previous, text using splitAfter.induct with
  | case1 previous => exact ⟨[], [], rfl, rfl, isFree_nil⟩
  | case2 previous text ih =>
    obtain ⟨first, links, hsplit, hjoin, hseparates⟩ := ih
    have hmod : Operator.mod = .sub → endsOperand (ending previous []) = true :=
      fun hop => absurd hop (by decide)
    refine ⟨[], (.mod, first) :: links, ?_, ?_, isFree_nil, hmod, hseparates⟩
    · rw [splitAfter, hsplit]
      rfl
    · rw [join_cons, hjoin]
      rfl
  | case3 previous c text hword op hop ih =>
    obtain ⟨first, links, hsplit, hjoin, hseparates⟩ := ih
    obtain ⟨hsymbol, hhyphen⟩ := symbol_of_operatorAt? hop
    refine ⟨[], (op, first) :: links, ?_, ?_, isFree_nil, hhyphen, ?_⟩
    · rw [splitAfter.eq_3 _ _ _ hword, hop, hsplit]
      rfl
    · rw [join_cons, hjoin, hsymbol]
      rfl
    · rw [hsymbol]
      exact hseparates
  | case4 previous c text hword hop ih =>
    obtain ⟨first, links, hsplit, hjoin, hseparates⟩ := ih
    have hstart : first <+: text := by
      have hoperand : (ofLinks first links).operands[0]? = some first := rfl
      rw [← hjoin]
      exact isPrefix_join hoperand
    have hmodulo : ¬Symbol.modulo <+: c :: first := by
      intro hmodulo
      obtain ⟨rest, hrest⟩ := hmodulo.trans (List.cons_prefix_cons.2 ⟨rfl, hstart⟩)
      obtain ⟨hc, htext⟩ := List.cons.inj hrest
      exact hword rest hc.symm htext.symm
    refine ⟨c :: first, links, ?_, ?_, hseparates.cons (hseparates.isFree.cons hop hmodulo)⟩
    · rw [splitAfter.eq_3 _ _ _ hword, hop, hsplit]
      rfl
    · rw [← hjoin]
      cases links with
      | nil => rfl
      | cons link links => rw [join_cons, join_cons]; rfl

/-- Every operand is free of operators behind what stands in front of it. -/
theorem Separates.isFree_operand (hseparates : Separates previous first links) {i : Nat}
    (hoperand : (ofLinks first links).operands[i]? = some operand) :
    IsFree (ending previous ((ofLinks first links).front i)) operand := by
  induction links generalizing previous first i with
  | nil =>
    obtain ⟨rfl, rfl⟩ : i = 0 ∧ first = operand := by
      cases i <;> simp_all [ofLinks]
    exact hseparates
  | cons link links ih =>
    obtain ⟨op, next⟩ := link
    obtain ⟨hfree, -, hseparates⟩ := hseparates
    cases i with
    | zero =>
      obtain rfl : first = operand := Option.some.inj hoperand
      exact hfree
    | succ i =>
      rw [front_cons, ending_append]
      exact ih hseparates hoperand

/-- Every hyphen that is an operator follows the operand in front of it. -/
theorem Separates.endsOperand_operand (hseparates : Separates previous first links) {i : Nat}
    (hsub : (ofLinks first links).operators[i]? = some .sub)
    (hoperand : (ofLinks first links).operands[i]? = some operand) :
    endsOperand (ending previous ((ofLinks first links).front i ++ operand)) = true := by
  induction links generalizing previous first i with
  | nil => cases hsub
  | cons link links ih =>
    obtain ⟨op, next⟩ := link
    obtain ⟨-, hhyphen, hseparates⟩ := hseparates
    cases i with
    | zero =>
      obtain rfl : first = operand := Option.some.inj hoperand
      exact hhyphen (Option.some.inj hsub)
    | succ i =>
      rw [front_cons, List.append_assoc, ending_append]
      exact ih hseparates hsub hoperand

end Splitting

theorem endsOperand_eq_true_iff {previous : Option Char} :
    endsOperand previous = true ↔ ∃ c, previous = some c ∧ (c.isDigit = true ∨ c = ']') := by
  cases previous <;> simp [endsOperand]

theorem ofChar?_eq_none_iff {c : Char} :
    Operator.ofChar? c = none ↔ c ∉ ['^', Symbol.times, Symbol.divide, '+'] := by
  rw [Operator.ofChar?]
  split_ifs <;> simp_all

/-- Every text that is read gives one operand. -/
theorem length_of_mapM {α β : Type} {read : α → Except Fault β} {parts : List α}
    {values : List β} (hvalues : parts.mapM read = .ok values) : values.length = parts.length := by
  induction parts generalizing values with
  | nil =>
    cases hvalues
    rfl
  | cons part parts ih =>
    simp only [List.mapM_cons, bind_eq_ok_iff, pure_eq_ok, Except.ok.injEq] at hvalues
    obtain ⟨value, -, others, hothers, rfl⟩ := hvalues
    exact congrArg (· + 1) (ih hothers)

/-- As many operands as the operators need are never too few or too many. -/
theorem reduce_ne_operandCount {chain : Chain Operand}
    (hlength : chain.operands.length = chain.operators.length + 1) (needed found : Nat) :
    reduce Operator.apply chain ≠ .error (.operandCount needed found) := by
  obtain ⟨first, links, rfl⟩ := exists_ofLinks hlength
  intro herror
  obtain ⟨_, op, _, _, x, y, -, -, -, hfault, -⟩ := firstFailure_of_reduce_eq_error herror
  exact Operator.isOperandFault_of_apply hfault

/-- Splitting a text loses nothing and finds every operator: the operands joined by the symbols
are the text, no operand holds an operator, and a hyphen is one exactly behind a digit or a
bracket that closes.  So however the operands are read, there are as many as the operators
need. -/
theorem split_lossless (text : Text) :
    (split text).operands.length = (split text).operators.length + 1 ∧
    (split text).join = text ∧
    (∀ i operand, (split text).operands[i]? = some operand →
      (split text).front i ++ operand <+: text ∧
      (∀ c ∈ operand, c ∉ ['^', Symbol.times, Symbol.divide, '+']) ∧
      ¬Symbol.modulo <:+: operand ∧
      ∀ left right, operand = left ++ '-' :: right →
        ∀ c, ((split text).front i ++ left).getLast? = some c → c.isDigit = false ∧ c ≠ ']') ∧
    (∀ i, (split text).operators[i]? = some .sub →
      ∃ operand c, (split text).operands[i]? = some operand ∧
        ((split text).front i ++ operand).getLast? = some c ∧ (c.isDigit = true ∨ c = ']')) ∧
    ∀ limit evaluate operands,
      (split text).operands.mapM (Expression.operand limit evaluate) = .ok operands →
      ∀ needed found, reduce Operator.apply ⟨operands, (split text).operators⟩ ≠
        .error (.operandCount needed found) := by
  obtain ⟨first, links, hsplit, hjoin, hseparates⟩ := exists_splitAfter_eq none text
  rw [split, hsplit]
  refine ⟨by simp [ofLinks], hjoin, fun i operand hoperand => ?_, fun i hsub => ?_, ?_⟩
  · have hfree := hseparates.isFree_operand hoperand
    have hplace := isPrefix_join hoperand
    rw [hjoin] at hplace
    refine ⟨hplace, fun c hc => ofChar?_eq_none_iff.1 (hfree.chars c hc), hfree.word, ?_⟩
    rintro left right rfl c hc
    have hbefore := (follows_append.1 hfree.hyphens).2.1 rfl
    rw [← ending_append, ending_none, hc] at hbefore
    simpa [endsOperand] using hbefore
  · have hlt : i < (ofLinks first links).operands.length := by
      have := (List.getElem?_eq_some_iff.1 hsub).1
      simp only [ofLinks, List.length_map, List.length_cons] at this ⊢
      omega
    have hoperand := List.getElem?_eq_getElem hlt
    have hends := hseparates.endsOperand_operand hsub hoperand
    rw [ending_none] at hends
    obtain ⟨c, hc, hends⟩ := endsOperand_eq_true_iff.1 hends
    exact ⟨_, c, hoperand, hc, hends⟩
  · intro limit evaluate operands hoperands
    exact reduce_ne_operandCount ((length_of_mapM hoperands).trans (by simp [ofLinks]))

end MatrixCalculator.Chain
