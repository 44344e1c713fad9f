import MatrixCalculator.Proofs.Factorial
import Mathlib.Tactic

/-!
# The grammar of scalar expressions

The grammar of the evaluator as derivation trees, without a word about how they
are found.  The grammar alone is ambiguous: a power, a factorial or a percent
sign behind the argument of a function may belong to the argument or to the
value of the function.  It belongs to the argument, which is the longest operand
that the tokens admit.  This turns out to depend on the very next token only.
-/

namespace MatrixCalculator.Scalar

inductive Level where
  | additive
  | multiplicative
  | unary
  | power
  | suffixed
  | primary

/-- The derivation trees of a phrase from a level of the grammar. -/
inductive Derivation : Level → List Token → Type where
  | product {p} (product : Derivation .multiplicative p) : Derivation .additive p
  | sum {p q} (left : Derivation .additive p) (op : Operator) (hop : op = .add ∨ op = .sub)
      (right : Derivation .multiplicative q) : Derivation .additive (p ++ .operator op :: q)
  | factor {p} (factor : Derivation .unary p) : Derivation .multiplicative p
  | times {p q} (left : Derivation .multiplicative p) (op : Operator)
      (hop : op = .mul ∨ op = .div ∨ op = .mod) (right : Derivation .unary q) :
      Derivation .multiplicative (p ++ .operator op :: q)
  | juxtaposition {p q} {head : Token} (left : Derivation .multiplicative p)
      (hhead : head = .leftParen ∨ (∃ f, head = .function f) ∨ ∃ c, head = .constant c)
      (right : Derivation .unary (head :: q)) :
      Derivation .multiplicative (p ++ head :: q)
  | plus {p} (x : Derivation .unary p) : Derivation .unary (.operator .add :: p)
  | minus {p} (x : Derivation .unary p) : Derivation .unary (.operator .sub :: p)
  | unsigned {p} (x : Derivation .power p) : Derivation .unary p
  | unraised {p} (x : Derivation .suffixed p) : Derivation .power p
  | raised {p q} (x : Derivation .suffixed p) (exponent : Derivation .unary q) :
      Derivation .power (p ++ .operator .pow :: q)
  | bare {p} (x : Derivation .primary p) : Derivation .suffixed p
  | factorial {p} (x : Derivation .suffixed p) : Derivation .suffixed (p ++ [.factorial])
  | percent {p} (x : Derivation .suffixed p) : Derivation .suffixed (p ++ [.percent])
  | number (x : Float) : Derivation .primary [.number x]
  | constant (c : Constant) : Derivation .primary [.constant c]
  | group {p} (x : Derivation .additive p) :
      Derivation .primary (.leftParen :: p ++ [.rightParen])
  | application {p} (f : NamedFunction) (argument : Derivation .unary p) :
      Derivation .primary (.function f :: p)

/-- The value of an operator on values that may be missing. -/
def onScalars? (op : Operator) (x y : Option Float) : Option Float := do
  return op.onScalars (← x) (← y)

theorem onScalars?_eq_some_iff {op : Operator} {x y : Option Float} {value : Float} :
    onScalars? op x y = some value ↔
      ∃ a b, x = some a ∧ y = some b ∧ op.onScalars a b = value := by
  cases x <;> cases y <;> simp [onScalars?]

/-- The factorial of a double with the value of a whole number from 0 to 170. -/
def factorial? (x : Float) : Option Float := do
  let n ← (List.range 171).find? fun (n : Nat) => x.isFinite && Numeral.value x == (n : Rat)
  (Factorial.ofNat n).toOption

theorem factorial?_eq_some_iff {x y : Float} :
    factorial? x = some y ↔
      ∃ n ≤ 170, Numeral.HasValue x (n : ℕ) ∧ Factorial.ofNat n = .ok y := by
  have hvalue : ∀ n : ℕ, (x.isFinite && Numeral.value x == (n : Rat)) = true ↔
      Numeral.HasValue x n := by
    intro n
    rw [Bool.and_eq_true, beq_iff_eq]
    exact ⟨fun h => ⟨h.1, h.2⟩, fun h => ⟨h.isFinite, h.value⟩⟩
  have hok : ∀ n, (Factorial.ofNat n).toOption = some y ↔ Factorial.ofNat n = .ok y := by
    intro n
    cases Factorial.ofNat n <;> simp
  simp only [factorial?, Option.bind_eq_bind, Option.bind_eq_some_iff, List.find?_range_eq_some,
    hvalue, hok, List.mem_range, Nat.lt_succ_iff]
  constructor
  · rintro ⟨n, ⟨hx, hn, -⟩, hfactorial⟩
    exact ⟨n, hn, hx, hfactorial⟩
  · rintro ⟨n, hn, hx, hfactorial⟩
    refine ⟨n, ⟨hx, hn, fun m hm => ?_⟩, hfactorial⟩
    rw [Bool.not_eq_true', ← Bool.not_eq_true, hvalue]
    intro hx'
    exact hm.ne (by exact_mod_cast hx'.value.symm.trans hx.value)

/-- These are the doubles that the evaluator finds a factorial of. -/
theorem toOption_factorialOf (x : Float) : (factorialOf x).toOption = factorial? x := by
  ext y
  rw [factorial?_eq_some_iff, ← Factorial.factorialOf_eq_ok_iff]
  cases factorialOf x <;> simp

namespace Derivation

variable {level : Level} {p q following : List Token}

/-- The value of a derivation, if every factorial in it has one. -/
def value? {level : Level} {p : List Token} : Derivation level p → Option Float
  | product x => x.value?
  | sum left op _ right | times left op _ right => onScalars? op left.value? right.value?
  | factor x => x.value?
  | juxtaposition left _ right => onScalars? .mul left.value? right.value?
  | plus x => x.value?
  | minus x => x.value?.map (-·)
  | unsigned x => x.value?
  | unraised x => x.value?
  | raised x exponent => onScalars? .pow x.value? exponent.value?
  | bare x => x.value?
  | factorial x => x.value?.bind factorial?
  | percent x => x.value?.map (· / 100.0)
  | number x => some x
  | constant c => some c.value
  | group x => x.value?
  | application f argument => argument.value?.map f.apply

def depth {level : Level} {p : List Token} : Derivation level p → Nat
  | product x | factor x | plus x | minus x | unsigned x | unraised x | bare x | factorial x
  | percent x => x.depth
  | sum x _ _ y | times x _ _ y | juxtaposition x _ y | raised x y => max x.depth y.depth
  | number _ | constant _ => 0
  | group x => x.depth + 1
  | application _ argument => argument.depth + 1

/-- Whether the argument of every function is the longest operand that the tokens
behind the function admit, if the phrase is followed by the given ones. -/
def LongestArguments (following : List Token) {level : Level} {p : List Token} :
    Derivation level p → Prop
  | product x | factor x | plus x | minus x | unsigned x | unraised x | bare x =>
    x.LongestArguments following
  | @sum _ q left op _ right | @times _ q left op _ right =>
    left.LongestArguments (.operator op :: q ++ following) ∧ right.LongestArguments following
  | @juxtaposition _ q head left _ right =>
    left.LongestArguments (head :: q ++ following) ∧ right.LongestArguments following
  | @raised _ q x exponent =>
    x.LongestArguments (.operator .pow :: q ++ following) ∧
      exponent.LongestArguments following
  | factorial x => x.LongestArguments (.factorial :: following)
  | percent x => x.LongestArguments (.percent :: following)
  | number _ | constant _ => True
  | group x => x.LongestArguments (.rightParen :: following)
  | @application p _ argument =>
    argument.LongestArguments following ∧
      ∀ longer, longer <+: p ++ following → Nonempty (Derivation .unary longer) →
        longer.length ≤ p.length

/-! ## How strongly tokens bind -/

end Derivation

/-- How strongly a token binds the value in front of it: powers and postfix signs
more than products, and these more than sums. -/
def Token.binding : Token → Nat
  | factorial | percent | operator .pow => 3
  | operator op => if op.precedence = .additive then 1 else 2
  | leftParen | function _ | constant _ => 2
  | number _ | rightParen => 0

def headBinding : List Token → Nat
  | [] => 0
  | token :: _ => token.binding

theorem Token.binding_of_startsFactor {token : Token} (hstarts : token.startsFactor = true) :
    token.binding = 2 := by
  rcases startsFactor_iff.1 hstarts with rfl | ⟨f, rfl⟩ | ⟨c, rfl⟩ <;> rfl

theorem Token.binding_of_additive {op : Operator} (hop : op = .add ∨ op = .sub) :
    (operator op).binding = 1 := by
  rcases hop with rfl | rfl <;> rfl

theorem Token.binding_of_multiplicative {op : Operator} (hop : op = .mul ∨ op = .div ∨ op = .mod) :
    (operator op).binding = 2 := by
  rcases hop with rfl | rfl | rfl <;> rfl

theorem Token.exists_additive {token : Token} (hbinding : token.binding = 1) :
    ∃ op, token = operator op ∧ (op = .add ∨ op = .sub) := by
  cases token with
  | operator op => cases op <;> simp_all [binding, Operator.precedence]
  | _ => simp [binding] at hbinding

theorem Token.exists_multiplicative {token : Token} (hbinding : token.binding = 2)
    (hstarts : token.startsFactor ≠ true) :
    ∃ op, token = operator op ∧ (op = .mul ∨ op = .div ∨ op = .mod) := by
  cases token with
  | operator op => cases op <;> simp_all [binding, Operator.precedence]
  | _ => simp_all [binding, startsFactor]

theorem Token.eq_of_binding_eq_three {token : Token} (hbinding : token.binding = 3) :
    token = factorial ∨ token = percent ∨ token = operator .pow := by
  cases token with
  | operator op => cases op <;> simp_all [binding, Operator.precedence]
  | _ => simp_all [binding]

theorem Token.eq_of_binding_eq_zero {token : Token} (hbinding : token.binding = 0) :
    token = rightParen ∨ ∃ z, token = number z := by
  cases token with
  | operator op => cases op <;> simp_all [binding, Operator.precedence]
  | _ => simp_all [binding]

theorem Token.binding_le_three (token : Token) : token.binding ≤ 3 := by
  cases token with
  | operator op => cases op <;> decide
  | _ => simp [binding]

namespace Derivation

variable {level : Level} {p q following : List Token}

/-- Whether no argument of a function is followed by a token that could extend it. -/
def ClosedArguments (following : List Token) {level : Level} {p : List Token} :
    Derivation level p → Prop
  | product x | factor x | plus x | minus x | unsigned x | unraised x | bare x =>
    x.ClosedArguments following
  | @sum _ q left op _ right | @times _ q left op _ right =>
    left.ClosedArguments (.operator op :: q ++ following) ∧ right.ClosedArguments following
  | @juxtaposition _ q head left _ right =>
    left.ClosedArguments (head :: q ++ following) ∧ right.ClosedArguments following
  | @raised _ q x exponent =>
    x.ClosedArguments (.operator .pow :: q ++ following) ∧ exponent.ClosedArguments following
  | factorial x => x.ClosedArguments (.factorial :: following)
  | percent x => x.ClosedArguments (.percent :: following)
  | number _ | constant _ => True
  | group x => x.ClosedArguments (.rightParen :: following)
  | application _ argument => argument.ClosedArguments following ∧ headBinding following ≤ 2

end Derivation

/-! ## The extent of an operand -/

/-- How many tokens belong to an operand, inside so many open parentheses, before
and behind its first value. -/
def extent : (awaiting : Bool) → (depth : Nat) → List Token → Nat
  | _, _, [] => 0
  | true, depth, .number _ :: tokens | true, depth, .constant _ :: tokens =>
    extent false depth tokens + 1
  | true, depth, .function _ :: tokens | true, depth, .operator .add :: tokens
  | true, depth, .operator .sub :: tokens => extent true depth tokens + 1
  | true, depth, .leftParen :: tokens => extent true (depth + 1) tokens + 1
  | true, _, _ => 0
  | false, depth, .factorial :: tokens | false, depth, .percent :: tokens =>
    extent false depth tokens + 1
  | false, depth, .operator .pow :: tokens => extent true depth tokens + 1
  | false, 0, _ => 0
  | false, depth + 1, .rightParen :: tokens => extent false depth tokens + 1
  | false, depth + 1, .operator _ :: tokens => extent true (depth + 1) tokens + 1
  | false, depth + 1, .leftParen :: tokens => extent true (depth + 2) tokens + 1
  | false, depth + 1, .function _ :: tokens => extent true (depth + 1) tokens + 1
  | false, depth + 1, .constant _ :: tokens => extent false (depth + 1) tokens + 1
  | false, _ + 1, .number _ :: _ => 0

theorem extent_operator (op : Operator) {depth : Nat} (hdepth : 0 < depth)
    (tokens : List Token) :
    extent false depth (.operator op :: tokens) = extent true depth tokens + 1 := by
  obtain ⟨depth, rfl⟩ := Nat.exists_eq_add_of_lt hdepth
  cases op <;> rfl

theorem extent_startsFactor {head : Token}
    (hhead : head = .leftParen ∨ (∃ f, head = .function f) ∨ ∃ c, head = .constant c)
    {depth : Nat} (hdepth : 0 < depth) (tokens : List Token) :
    extent false depth (head :: tokens) = extent true depth (head :: tokens) := by
  obtain ⟨depth, rfl⟩ := Nat.exists_eq_add_of_lt hdepth
  rcases hhead with rfl | ⟨f, rfl⟩ | ⟨c, rfl⟩ <;> rfl

theorem extent_eq_zero {tokens : List Token} (hbinding : headBinding tokens ≤ 2) :
    extent false 0 tokens = 0 := by
  cases tokens with
  | nil => rfl
  | cons token tokens =>
    cases token with
    | operator op => cases op <;> simp_all [headBinding, Token.binding, extent]
    | _ => simp_all [headBinding, Token.binding, extent]

/-- Whether a phrase can stand on a level so many parentheses deep: sums and products
are operands only inside parentheses. -/
def Level.Admits (depth : Nat) : Level → Prop
  | .additive | .multiplicative => 0 < depth
  | _ => True

namespace Derivation

variable {level : Level} {p q following : List Token}

/-- The extent of an operand covers every phrase at its head. -/
theorem extent_append (x : Derivation level p) {depth : Nat} (hlevel : level.Admits depth)
    (following : List Token) :
    extent true depth (p ++ following) = p.length + extent false depth following := by
  induction x generalizing depth following with
  | product x ih => exact ih hlevel following
  | factor x ih => exact ih trivial following
  | unsigned x ih => exact ih trivial following
  | unraised x ih => exact ih trivial following
  | bare x ih => exact ih trivial following
  | sum left op hop right ihleft ihright =>
    rw [List.append_assoc, List.cons_append, ihleft hlevel, extent_operator op hlevel,
      ihright hlevel, List.length_append, List.length_cons]
    omega
  | times left op hop right ihleft ihright =>
    rw [List.append_assoc, List.cons_append, ihleft hlevel, extent_operator op hlevel,
      ihright trivial, List.length_append, List.length_cons]
    omega
  | juxtaposition left hhead right ihleft ihright =>
    rw [List.append_assoc, ihleft hlevel, List.cons_append, extent_startsFactor hhead hlevel,
      ← List.cons_append, ihright trivial, List.length_append]
    omega
  | plus x ih | minus x ih =>
    rw [List.cons_append, extent, ih trivial, List.length_cons]
    omega
  | raised x exponent ih ihexponent =>
    rw [List.append_assoc, List.cons_append, ih trivial, extent, ihexponent trivial,
      List.length_append, List.length_cons]
    omega
  | factorial x ih | percent x ih =>
    rw [List.append_assoc, List.cons_append, List.nil_append, ih trivial, extent,
      List.length_append, List.length_singleton]
    omega
  | number x => exact Nat.add_comm _ _
  | constant c => exact Nat.add_comm _ _
  | group x ih =>
    rw [List.cons_append, List.cons_append, List.append_assoc, extent, ih (Nat.succ_pos depth),
      List.cons_append, List.nil_append, extent, List.length_cons, List.length_append,
      List.length_singleton]
    omega
  | application f argument ih =>
    rw [List.cons_append, extent, ih trivial, List.length_cons]
    omega

/-- An operand is the longest one wherever the next token cannot extend it. -/
theorem length_le_of_headBinding (x : Derivation .unary p) (hstop : headBinding following ≤ 2)
    (hlead : q <+: p ++ following) (y : Derivation .unary q) : q.length ≤ p.length := by
  obtain ⟨rest, hrest⟩ := hlead
  have hx : extent true 0 (p ++ following) = _ := x.extent_append trivial following
  have hy : extent true 0 (q ++ rest) = _ := y.extent_append trivial rest
  rw [extent_eq_zero hstop] at hx
  rw [hrest, hx] at hy
  omega

/-! ## Longest arguments -/

/-- The tokens that extend an operand: a postfix sign, or a power with its exponent. -/
inductive Extension : List Token → Prop
  | factorial : Extension [.factorial]
  | percent : Extension [.percent]
  | power {q : List Token} (exponent : Derivation .unary q) : Extension (.operator .pow :: q)

/-- What a phrase of an operand level is when it is extended. -/
def Extended (phrase : List Token) : Level → Prop
  | .additive | .multiplicative => True
  | .unary => Nonempty (Derivation .unary phrase)
  | _ => Nonempty (Derivation .power phrase)

theorem extend_suffixed (x : Derivation .suffixed p) {tail : List Token} (htail : Extension tail) :
    Nonempty (Derivation .power (p ++ tail)) := by
  cases htail with
  | factorial => exact ⟨.unraised (.factorial x)⟩
  | percent => exact ⟨.unraised (.percent x)⟩
  | power exponent => exact ⟨.raised x exponent⟩

theorem extend (x : Derivation level p) {tail : List Token} (htail : Extension tail) :
    Extended (p ++ tail) level := by
  induction x with
  | product | sum | factor | times | juxtaposition => trivial
  | plus x ih => exact ih.map .plus
  | minus x ih => exact ih.map .minus
  | unsigned x ih => exact ih.map .unsigned
  | unraised x => exact x.extend_suffixed htail
  | raised x exponent ih ihexponent =>
    obtain ⟨longer⟩ : Nonempty (Derivation .unary _) := ihexponent
    rw [List.append_assoc, List.cons_append]
    exact ⟨.raised x longer⟩
  | bare x => exact (bare x).extend_suffixed htail
  | factorial x => exact (factorial x).extend_suffixed htail
  | percent x => exact (percent x).extend_suffixed htail
  | number x => exact (bare (number x)).extend_suffixed htail
  | constant c => exact (bare (constant c)).extend_suffixed htail
  | group x => exact (bare (group x)).extend_suffixed htail
  | application f argument => exact (bare (application f argument)).extend_suffixed htail

/-- Whether a power among some tokens that follow a phrase has an exponent. -/
def HasExponent (following : List Token) : Prop :=
  ∀ rest, following = .operator .pow :: rest → ∃ q, q <+: rest ∧ Nonempty (Derivation .unary q)

theorem hasExponent_cons {token : Token} (hbinding : token.binding ≤ 2) (rest : List Token) :
    HasExponent (token :: rest) := by
  intro other heq
  cases heq
  simp [Token.binding] at hbinding

theorem exists_extension (hbinding : 2 < headBinding following)
    (hexponent : HasExponent following) : ∃ tail, tail <+: following ∧ Extension tail := by
  cases following with
  | nil => simp [headBinding] at hbinding
  | cons token rest =>
    cases token with
    | factorial => exact ⟨_, by simp, .factorial⟩
    | percent => exact ⟨_, by simp, .percent⟩
    | operator op =>
      cases op with
      | pow =>
        obtain ⟨q, hq, ⟨exponent⟩⟩ := hexponent rest rfl
        exact ⟨_, by simpa using hq, .power exponent⟩
      | _ => simp [headBinding, Token.binding, Operator.precedence] at hbinding
    | _ => simp [headBinding, Token.binding] at hbinding

/-- The arguments are the longest ones exactly where the next token cannot extend them. -/
theorem longestArguments_iff (x : Derivation level p) (hexponent : HasExponent following) :
    x.LongestArguments following ↔ x.ClosedArguments following := by
  induction x generalizing following with
  | product x ih | factor x ih | plus x ih | minus x ih | unsigned x ih | unraised x ih
  | bare x ih => exact ih hexponent
  | sum left op hop right ihleft ihright =>
    have hsum : (Token.operator op).binding ≤ 2 := by rw [Token.binding_of_additive hop]; omega
    exact and_congr (ihleft (hasExponent_cons hsum _)) (ihright hexponent)
  | times left op hop right ihleft ihright =>
    have htimes : (Token.operator op).binding ≤ 2 := (Token.binding_of_multiplicative hop).le
    exact and_congr (ihleft (hasExponent_cons htimes _)) (ihright hexponent)
  | juxtaposition left hhead right ihleft ihright =>
    have hfactor := (Token.binding_of_startsFactor (Token.startsFactor_iff.2 hhead)).le
    exact and_congr (ihleft (hasExponent_cons hfactor _)) (ihright hexponent)
  | raised x exponent ih ihexponent =>
    refine and_congr (ih ?_) (ihexponent hexponent)
    rintro rest ⟨⟩
    exact ⟨_, List.prefix_append _ _, ⟨exponent⟩⟩
  | factorial x ih | percent x ih =>
    refine ih ?_
    rintro rest ⟨⟩
  | number x => exact Iff.rfl
  | constant c => exact Iff.rfl
  | group x ih => exact ih (hasExponent_cons (by simp [Token.binding]) _)
  | application f argument ih =>
    refine and_congr (ih hexponent) ⟨fun hlongest => ?_, fun hstop longer hlead hlonger => ?_⟩
    · by_contra hextends
      obtain ⟨tail, htail, hextension⟩ := exists_extension (by omega) hexponent
      obtain ⟨y⟩ : Nonempty (Derivation .unary _) := argument.extend hextension
      have := hlongest _ (by simpa using htail) ⟨y⟩
      cases hextension <;> simp at this
    · obtain ⟨y⟩ := hlonger
      exact argument.length_le_of_headBinding hstop hlead y

end Derivation

end MatrixCalculator.Scalar
