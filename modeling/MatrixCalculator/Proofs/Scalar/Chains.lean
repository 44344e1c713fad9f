import MatrixCalculator.Operator.Application
import MatrixCalculator.Proofs.Chain.Values
import MatrixCalculator.Proofs.Scalar.Derivations
import MatrixCalculator.Proofs.Scalar.Lexemes

/-!
# Chains of operands as scalar expressions

What stands between the operators of a chain may be any operand of the grammar, as long
as nothing behind it can belong to it: in front of a power it has to be a postfix
operand, so that the power is not one of a part of it.  The precedence tree of such a
chain is a derivation of its tokens, and so the scalar evaluator finds the value of the
tree.
-/

namespace MatrixCalculator

open Chain Outcome

namespace Scalar

variable {depth : Nat} {op : Operator} {x y : Float} {p q following : List Token}

/-! ## Derivations -/

/-- Whether some tokens have a derivation of a value, with so many levels of nesting,
in which nothing behind the tokens can belong to the argument of a function. -/
def Derives (depth : Nat) (level : Level) (tokens : List Token) (x : Float) : Prop :=
  ∃ d : Derivation level tokens, d.depth ≤ depth ∧ d.value? = some x ∧
    ∀ following, headBinding following ≤ 2 → d.ClosedArguments following

/-- Whether some tokens are a postfix operand that has no argument at its end. -/
def DerivesBase (depth : Nat) (tokens : List Token) (x : Float) : Prop :=
  ∃ d : Derivation .suffixed tokens, d.depth ≤ depth ∧ d.value? = some x ∧
    ∀ following, d.ClosedArguments following

theorem Derives.factor (h : Derives depth .unary p x) : Derives depth .multiplicative p x := by
  obtain ⟨d, hdepth, hvalue, hclosed⟩ := h
  exact ⟨.factor d, hdepth, hvalue, hclosed⟩

theorem Derives.product (h : Derives depth .multiplicative p x) :
    Derives depth .additive p x := by
  obtain ⟨d, hdepth, hvalue, hclosed⟩ := h
  exact ⟨.product d, hdepth, hvalue, hclosed⟩

theorem Derives.sum (hleft : Derives depth .additive p x) (hop : op = .add ∨ op = .sub)
    (hright : Derives depth .multiplicative q y) :
    Derives depth .additive (p ++ .operator op :: q) (op.onScalars x y) := by
  obtain ⟨d, hdepth, hvalue, hclosed⟩ := hleft
  obtain ⟨e, hdepth', hvalue', hclosed'⟩ := hright
  refine ⟨.sum d op hop e, Nat.max_le.2 ⟨hdepth, hdepth'⟩,
    onScalars?_eq_some_iff.2 ⟨x, y, hvalue, hvalue', rfl⟩, fun following hfollowing =>
    ⟨hclosed _ ?_, hclosed' following hfollowing⟩⟩
  exact (Token.binding_of_additive hop).trans_le (by decide)

theorem Derives.times (hleft : Derives depth .multiplicative p x)
    (hop : op = .mul ∨ op = .div ∨ op = .mod) (hright : Derives depth .unary q y) :
    Derives depth .multiplicative (p ++ .operator op :: q) (op.onScalars x y) := by
  obtain ⟨d, hdepth, hvalue, hclosed⟩ := hleft
  obtain ⟨e, hdepth', hvalue', hclosed'⟩ := hright
  refine ⟨.times d op hop e, Nat.max_le.2 ⟨hdepth, hdepth'⟩,
    onScalars?_eq_some_iff.2 ⟨x, y, hvalue, hvalue', rfl⟩, fun following hfollowing =>
    ⟨hclosed _ ?_, hclosed' following hfollowing⟩⟩
  exact (Token.binding_of_multiplicative hop).le

theorem DerivesBase.raised (hbase : DerivesBase depth p x) (hright : Derives depth .unary q y) :
    Derives depth .unary (p ++ .operator .pow :: q) (Operator.pow.onScalars x y) := by
  obtain ⟨d, hdepth, hvalue, hclosed⟩ := hbase
  obtain ⟨e, hdepth', hvalue', hclosed'⟩ := hright
  exact ⟨.unsigned (.raised d e), Nat.max_le.2 ⟨hdepth, hdepth'⟩,
    onScalars?_eq_some_iff.2 ⟨x, y, hvalue, hvalue', rfl⟩, fun following hfollowing =>
    ⟨hclosed _, hclosed' following hfollowing⟩⟩

theorem DerivesBase.operand (hbase : DerivesBase depth p x) : Derives depth .unary p x := by
  obtain ⟨d, hdepth, hvalue, hclosed⟩ := hbase
  exact ⟨.unsigned (.unraised d), hdepth, hvalue, fun following _ => hclosed following⟩

theorem derivesBase_number (depth : Nat) (x : Float) : DerivesBase depth [.number x] x :=
  ⟨.bare (.number x), Nat.zero_le depth, rfl, fun _ => trivial⟩

/-- A sum in parentheses is an operand one level deeper. -/
theorem Derives.group (h : Derives depth .additive p x) :
    DerivesBase (depth + 1) (.leftParen :: p ++ [.rightParen]) x := by
  obtain ⟨d, hdepth, hvalue, hclosed⟩ := h
  exact ⟨.bare (.group d), Nat.succ_le_succ hdepth, hvalue,
    fun following => hclosed (.rightParen :: following) (Nat.zero_le 2)⟩

theorem Derives.minus (h : Derives depth .unary p x) :
    Derives depth .unary (.operator .sub :: p) (-x) := by
  obtain ⟨d, hdepth, hvalue, hclosed⟩ := h
  refine ⟨.minus d, hdepth, ?_, hclosed⟩
  rw [Derivation.value?, hvalue]
  rfl

theorem Derives.plus (h : Derives depth .unary p x) :
    Derives depth .unary (.operator .add :: p) x := by
  obtain ⟨d, hdepth, hvalue, hclosed⟩ := h
  exact ⟨.plus d, hdepth, hvalue, hclosed⟩

theorem DerivesBase.percent (hbase : DerivesBase depth p x) :
    DerivesBase depth (p ++ [.percent]) (x / 100.0) := by
  obtain ⟨d, hdepth, hvalue, hclosed⟩ := hbase
  refine ⟨.percent d, hdepth, ?_, fun following => hclosed _⟩
  rw [Derivation.value?, hvalue]
  rfl

theorem Derives.application (f : NamedFunction) (h : Derives depth .unary p x) :
    Derives (depth + 1) .unary (.function f :: p) (f.apply x) := by
  obtain ⟨d, hdepth, hvalue, hclosed⟩ := h
  refine ⟨.unsigned (.unraised (.bare (.application f d))), Nat.succ_le_succ hdepth, ?_,
    fun following hfollowing => ⟨hclosed following hfollowing, hfollowing⟩⟩
  rw [Derivation.value?, Derivation.value?, Derivation.value?, Derivation.value?, hvalue]
  rfl

/-! ## Chains are derivations -/

section Chains

variable {β : Type} (tokens : β → List Token) (value : β → Float)

def linkTokens : β → Links β → List Token
  | first, [] => tokens first
  | first, (op, next) :: links => tokens first ++ .operator op :: linkTokens next links

/-- Whether every operand of a chain is one, and every base of a power a postfix one. -/
def AreOperands (depth : Nat) : β → Links β → Prop
  | first, [] => Derives depth .unary (tokens first) (value first)
  | first, (op, next) :: links =>
    (if op = .pow then DerivesBase depth (tokens first) (value first)
      else Derives depth .unary (tokens first) (value first)) ∧ AreOperands depth next links

variable {tokens value} {first next : β} {links left right : Links β}

theorem linkTokens_append (first next : β) (op : Operator) (left right : Links β) :
    linkTokens tokens first (left ++ (op, next) :: right) =
      linkTokens tokens first left ++ .operator op :: linkTokens tokens next right := by
  induction left generalizing first with
  | nil => rfl
  | cons link left ih => simp [linkTokens, ih]

theorem AreOperands.derives (hoperands : AreOperands tokens value depth first links) :
    Derives depth .unary (tokens first) (value first) := by
  cases links with
  | nil => exact hoperands
  | cons link links =>
    have hfirst := hoperands.1
    split at hfirst
    · exact hfirst.operand
    · exact hfirst

/-- Both parts of a chain that is cut at an operator are chains of operands. -/
theorem AreOperands.of_append
    (hoperands : AreOperands tokens value depth first (left ++ (op, next) :: right)) :
    AreOperands tokens value depth first left ∧ AreOperands tokens value depth next right := by
  induction left generalizing first with
  | nil => exact ⟨hoperands.derives, hoperands.2⟩
  | cons link left ih => exact ⟨⟨hoperands.1, (ih hoperands.2).1⟩, (ih hoperands.2).2⟩

/-- The level of the grammar for the operators of a precedence. -/
def levelOf : Precedence → Level
  | .power => .unary
  | .multiplicative => .multiplicative
  | .additive => .additive

/-- The tokens of a chain derive its value, on the level of its operators. -/
theorem derives_of_grouped {precedence : Precedence} (hgrouped : Grouped precedence first links)
    (hoperands : AreOperands tokens value depth first links) :
    Derives depth (levelOf precedence) (linkTokens tokens first links)
      (linkValue Operator.onScalars value first links) := by
  induction hgrouped with
  | operand first => rwa [linkValue_nil]
  | power first hright ih =>
    rw [linkValue_power hright]
    exact hoperands.1.raised (ih hoperands.2)
  | factor _ ih => exact (ih hoperands).factor
  | product hleft hop hright ihLeft ihRight =>
    rw [linkTokens_append, linkValue_product hleft hop hright]
    exact (ihLeft hoperands.of_append.1).times (Operator.precedence_eq_multiplicative_iff.1 hop)
      (ihRight hoperands.of_append.2)
  | term _ ih => exact (ih hoperands).product
  | sum _ hop hright ihLeft ihRight =>
    rw [linkTokens_append, linkValue_sum hop hright]
    exact (ihLeft hoperands.of_append.1).sum (Operator.precedence_eq_additive_iff.1 hop)
      (ihRight hoperands.of_append.2)

end Chains

/-! ## Values -/

/-- What is derived within the limit of nesting is the value of the tokens. -/
theorem evaluate_of_derives {text : Text} {tokens : List Token} {limit : Nat}
    (htokens : Lexes text tokens) (hderives : Derives depth .additive tokens x)
    (hlimit : depth ≤ limit) :
    evaluate limit text = if x.isNaN then .error .notANumber else .ok x := by
  obtain ⟨d, hdepth, hvalue, hclosed⟩ := hderives
  obtain ⟨lexemes, hlexemes, hmap⟩ := htokens 0
  have hlongest : d.LongestArguments [] :=
    (d.longestArguments_iff (by rintro rest ⟨⟩)).2 (hclosed [] (Nat.zero_le 2))
  have hrun : valueOf limit lexemes = .ok x := by
    refine valueOf_eq_ok_iff.2 (.inl ?_)
    rw [hmap, valueFrom?_start_eq_some_iff]
    exact ⟨d, hlongest, hdepth.trans hlimit, hvalue⟩
  rw [evaluate, Scalar.lexemes, hlexemes, ok_bind, hrun, ok_bind]
  rfl

/-- The scalar evaluator finds the value of a chain of operands. -/
theorem evaluate_of_areOperands {β : Type} {tokens : β → List Token} {value : β → Float} {first : β}
    {links : Links β} {text : Text} {limit : Nat}
    (htokens : Lexes text (linkTokens tokens first links))
    (hoperands : AreOperands tokens value depth first links) (hlimit : depth ≤ limit) :
    evaluate limit text =
      if (linkValue Operator.onScalars value first links).isNaN then .error .notANumber
      else .ok (linkValue Operator.onScalars value first links) :=
  evaluate_of_derives htokens (derives_of_grouped (grouped first links) hoperands) hlimit

end Scalar

end MatrixCalculator
