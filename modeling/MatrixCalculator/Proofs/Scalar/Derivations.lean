import MatrixCalculator.Proofs.Scalar.Reading

/-!
# Expressions and their derivations

The evaluator against the grammar.  Reading a phrase from any level hands its value
to whatever was pending before, if the operators around the phrase bind weaker than
those in it.  The other way round, the tokens that have been read with success are
taken apart as a recursive descent would do it: a unary operand first, then the
products and the sums that it is a part of.
-/

namespace MatrixCalculator.Scalar

open Outcome

variable {limit : Nat} {x value : Float} {pending : List Pending} {token : Token}
variable {level : Level} {p tokens rest following : List Token} {op : Operator}

/-- How many parentheses and arguments are open. -/
def nesting (pending : List Pending) : Nat := pending.countP Pending.isNested

@[simp]
theorem nesting_binary : nesting (.binary x op :: pending) = nesting pending :=
  List.countP_cons_of_neg (by simp [Pending.isNested])

@[simp]
theorem nesting_negation : nesting (.negation :: pending) = nesting pending :=
  List.countP_cons_of_neg (by simp [Pending.isNested])

@[simp]
theorem nesting_group : nesting (.group :: pending) = nesting pending + 1 :=
  List.countP_cons_of_pos rfl

@[simp]
theorem nesting_argument (f : NamedFunction) :
    nesting (.argument f :: pending) = nesting pending + 1 :=
  List.countP_cons_of_pos rfl

/-! ## Operators between phrases -/

theorem strength_binary_additive (hop : op = .add ∨ op = .sub) :
    (Pending.binary x op).strength = 1 := by
  rw [Pending.strength, if_pos (Operator.precedence_eq_additive_iff.2 hop)]

theorem strength_binary_multiplicative (hop : op = .mul ∨ op = .div ∨ op = .mod) :
    (Pending.binary x op).strength = 2 := by
  rw [Pending.strength, Operator.precedence_eq_multiplicative_iff.2 hop]
  rfl

theorem readOperator_eq (hweak : headStrength pending < (Token.operator op).binding) :
    readOperator x pending op = .binary x op :: pending := by
  rw [binding_operator] at hweak
  rw [readOperator, close_of_lt hweak]

theorem valueFrom?_operator (hweak : headStrength pending < (Token.operator op).binding) :
    valueFrom? limit (.having x pending) (.operator op :: tokens) =
      valueFrom? limit (.awaiting (.binary x op :: pending)) tokens := by
  rw [valueFrom?, readToken?_operator, readOperator_eq hweak]
  rfl

theorem valueFrom?_startsFactor (hstarts : token.startsFactor = true)
    (hweak : headStrength pending < 2) :
    valueFrom? limit (.having x pending) (token :: tokens) =
      valueFrom? limit (.awaiting (.binary x .mul :: pending)) (token :: tokens) := by
  rw [valueFrom?, valueFrom?, readToken?_startsFactor hstarts, readOperator_eq hweak]

theorem headStrength_lt_three (pending : List Pending) : headStrength pending < 3 := by
  cases pending with
  | nil => exact Nat.succ_pos 2
  | cons first pending => exact Nat.lt_succ_of_le (strength_le_two first)

/-! ## Nesting -/

/-- Whether a token opens a group or an argument, as far as the limit allows one more. -/
def Opens (limit : Nat) (token : Token) (inner : Pending) : Prop :=
  ∀ pending, readToken? limit (.awaiting pending) token =
    if nesting pending < limit then some (.awaiting (inner :: pending)) else none

theorem opens_leftParen : Opens limit .leftParen .group := fun _ => readToken?_leftParen

theorem opens_function (f : NamedFunction) : Opens limit (.function f) (.argument f) :=
  fun _ => readToken?_function f

theorem Opens.valueFrom? {inner : Pending} (hopens : Opens limit token inner)
    (hnest : nesting pending < limit) :
    valueFrom? limit (.awaiting pending) (token :: tokens) =
      valueFrom? limit (.awaiting (inner :: pending)) tokens := by
  rw [Scalar.valueFrom?, hopens, if_pos hnest]
  rfl

/-- Nothing is opened beyond the limit. -/
theorem Opens.nesting_lt {inner : Pending} (hopens : Opens limit token inner)
    (hrun : Scalar.valueFrom? limit (.awaiting pending) (token :: tokens) = some value) :
    nesting pending < limit := by
  by_contra hnest
  rw [Scalar.valueFrom?, hopens, if_neg hnest] at hrun
  cases hrun

/-! ## From derivations to values -/

/-- Whether the parts that are pending and the tokens that follow leave a phrase of a
level as it is. -/
def Level.Fits (pending : List Pending) (following : List Token) : Level → Prop
  | .additive => headStrength pending = 0 ∧ headBinding following ≤ 1
  | .multiplicative => headStrength pending ≤ 1 ∧ headBinding following ≤ 2
  | .unary | .power => headBinding following ≤ 2
  | .suffixed | .primary => True

theorem valueFrom?_complete_binary {y z : Float}
    (hbinding : headBinding tokens ≤ (Pending.binary y op).strength) :
    valueFrom? limit (.having z (.binary y op :: pending)) tokens =
      valueFrom? limit (.having (op.onScalars y z) pending) tokens := by
  refine valueFrom?_complete ?_ hbinding
  rw [Ne, strength_eq_zero_iff]
  exact Bool.false_ne_true

/-- A phrase that the operator in front of it takes as its right side. -/
theorem valueFrom?_binary {y z : Float}
    (hright : valueFrom? limit (.awaiting (.binary y op :: pending)) tokens =
      valueFrom? limit (.having z (.binary y op :: pending)) following)
    (hweak : headStrength pending < (Token.operator op).binding)
    (hbinding : headBinding following ≤ (Pending.binary y op).strength) :
    valueFrom? limit (.having y pending) (.operator op :: tokens) =
      valueFrom? limit (.having (op.onScalars y z) pending) following := by
  rw [valueFrom?_operator hweak, hright, valueFrom?_complete_binary hbinding]

/-- Whether reading a phrase leaves the value of its derivation. -/
def Derivation.IsRead (limit : Nat) (d : Derivation level p) : Prop :=
  ∀ ⦃pending following x⦄, d.ClosedArguments following → d.depth + nesting pending ≤ limit →
    d.value? = some x → level.Fits pending following →
    valueFrom? limit (.awaiting pending) (p ++ following) =
      valueFrom? limit (.having x pending) following

namespace Derivation.IsRead

variable {q : List Token}

theorem sum {left : Derivation .additive p} {right : Derivation .multiplicative q}
    (hleft : left.IsRead limit) (hop : op = .add ∨ op = .sub) (hright : right.IsRead limit) :
    (Derivation.sum left op hop right).IsRead limit := by
  rintro pending following _ hclosed hdepth hvalue ⟨hpending, hfollowing⟩
  obtain ⟨y, z, hy, hz, rfl⟩ := onScalars?_eq_some_iff.1 hvalue
  simp only [depth] at hdepth
  have hbinding := Token.binding_of_additive hop
  have hstrength : (Pending.binary y op).strength = 1 := strength_binary_additive hop
  have hreadRight :
      valueFrom? limit (.awaiting (.binary y op :: pending)) (q ++ following) = _ :=
    hright hclosed.2 (by rw [nesting_binary]; omega) hz ⟨hstrength.le, by omega⟩
  calc
    valueFrom? limit (.awaiting pending) (p ++ .operator op :: q ++ following) =
        valueFrom? limit (.having y pending) (.operator op :: (q ++ following)) := by
      rw [List.append_assoc]
      exact hleft hclosed.1 (by omega) hy ⟨hpending, hbinding.le⟩
    _ = valueFrom? limit (.having (op.onScalars y z) pending) following :=
      valueFrom?_binary hreadRight (by omega) (by rwa [hstrength])

theorem times {left : Derivation .multiplicative p} {right : Derivation .unary q}
    (hleft : left.IsRead limit) (hop : op = .mul ∨ op = .div ∨ op = .mod)
    (hright : right.IsRead limit) : (Derivation.times left op hop right).IsRead limit := by
  rintro pending following _ hclosed hdepth hvalue ⟨hpending, hfollowing⟩
  obtain ⟨y, z, hy, hz, rfl⟩ := onScalars?_eq_some_iff.1 hvalue
  simp only [depth] at hdepth
  have hbinding := Token.binding_of_multiplicative hop
  have hstrength : (Pending.binary y op).strength = 2 := strength_binary_multiplicative hop
  have hreadRight :
      valueFrom? limit (.awaiting (.binary y op :: pending)) (q ++ following) = _ :=
    hright hclosed.2 (by rw [nesting_binary]; omega) hz hfollowing
  calc
    valueFrom? limit (.awaiting pending) (p ++ .operator op :: q ++ following) =
        valueFrom? limit (.having y pending) (.operator op :: (q ++ following)) := by
      rw [List.append_assoc]
      exact hleft hclosed.1 (by omega) hy ⟨hpending, hbinding.le⟩
    _ = valueFrom? limit (.having (op.onScalars y z) pending) following :=
      valueFrom?_binary hreadRight (by omega) (by rwa [hstrength])

theorem juxtaposition {left : Derivation .multiplicative p} {head : Token}
    {right : Derivation .unary (head :: q)} (hleft : left.IsRead limit)
    (hhead : head = .leftParen ∨ (∃ f, head = .function f) ∨ ∃ c, head = .constant c)
    (hright : right.IsRead limit) :
    (Derivation.juxtaposition left hhead right).IsRead limit := by
  rintro pending following _ hclosed hdepth hvalue ⟨hpending, hfollowing⟩
  obtain ⟨y, z, hy, hz, rfl⟩ := onScalars?_eq_some_iff.1 hvalue
  simp only [depth] at hdepth
  have hstarts := Token.startsFactor_iff.2 hhead
  calc
    valueFrom? limit (.awaiting pending) (p ++ head :: q ++ following) =
        valueFrom? limit (.having y pending) (head :: (q ++ following)) := by
      rw [List.append_assoc]
      exact hleft hclosed.1 (by omega) hy ⟨hpending, (Token.binding_of_startsFactor hstarts).le⟩
    _ = valueFrom? limit (.awaiting (.binary y .mul :: pending)) (head :: (q ++ following)) :=
      valueFrom?_startsFactor hstarts (Nat.lt_succ_of_le hpending)
    _ = valueFrom? limit (.having z (.binary y .mul :: pending)) following :=
      hright hclosed.2 (by rw [nesting_binary]; omega) hz hfollowing
    _ = valueFrom? limit (.having (Operator.mul.onScalars y z) pending) following :=
      valueFrom?_complete (Nat.succ_ne_zero 1) hfollowing

theorem raised {base : Derivation .suffixed p} {exponent : Derivation .unary q}
    (hbase : base.IsRead limit) (hexponent : exponent.IsRead limit) :
    (Derivation.raised base exponent).IsRead limit := by
  intro pending following _ hclosed hdepth hvalue hfits
  obtain ⟨y, z, hy, hz, rfl⟩ := onScalars?_eq_some_iff.1 hvalue
  simp only [depth] at hdepth
  have hreadRight :
      valueFrom? limit (.awaiting (.binary y .pow :: pending)) (q ++ following) = _ :=
    hexponent hclosed.2 (by rw [nesting_binary]; omega) hz hfits
  calc
    valueFrom? limit (.awaiting pending) (p ++ .operator .pow :: q ++ following) =
        valueFrom? limit (.having y pending) (.operator .pow :: (q ++ following)) := by
      rw [List.append_assoc]
      exact hbase hclosed.1 (by omega) hy trivial
    _ = valueFrom? limit (.having (Operator.pow.onScalars y z) pending) following :=
      valueFrom?_binary hreadRight (headStrength_lt_three pending) hfits

theorem minus {d : Derivation .unary p} (hd : d.IsRead limit) :
    (Derivation.minus d).IsRead limit := by
  intro pending following _ hclosed hdepth hvalue hfits
  obtain ⟨y, hy, rfl⟩ := Option.map_eq_some_iff.1 hvalue
  have hread : valueFrom? limit (.awaiting (.negation :: pending)) (p ++ following) = _ :=
    hd hclosed (by rwa [nesting_negation]) hy hfits
  exact hread.trans (valueFrom?_complete (Nat.succ_ne_zero 1) hfits)

theorem factorial {d : Derivation .suffixed p} (hd : d.IsRead limit) :
    (Derivation.factorial d).IsRead limit := by
  intro pending following x hclosed hdepth hvalue hfits
  obtain ⟨y, hy, hfactorial⟩ := Option.bind_eq_some_iff.1 hvalue
  rw [List.append_assoc]
  refine (hd hclosed hdepth hy trivial).trans ?_
  rw [valueFrom?, readToken?_factorial, hfactorial]
  rfl

theorem percent {d : Derivation .suffixed p} (hd : d.IsRead limit) :
    (Derivation.percent d).IsRead limit := by
  intro pending following _ hclosed hdepth hvalue hfits
  obtain ⟨y, hy, rfl⟩ := Option.map_eq_some_iff.1 hvalue
  rw [List.append_assoc]
  exact hd hclosed hdepth hy trivial

theorem group {d : Derivation .additive p} (hd : d.IsRead limit) :
    (Derivation.group d).IsRead limit := by
  intro pending following x hclosed hdepth hvalue hfits
  simp only [depth] at hdepth
  calc
    valueFrom? limit (.awaiting pending) (.leftParen :: p ++ [.rightParen] ++ following) =
        valueFrom? limit (.awaiting (.group :: pending)) (p ++ .rightParen :: following) := by
      rw [List.cons_append, List.cons_append, List.append_assoc,
        opens_leftParen.valueFrom? (by omega)]
      rfl
    _ = valueFrom? limit (.having x (.group :: pending)) (.rightParen :: following) :=
      hd hclosed (by rw [nesting_group]; omega) hvalue ⟨rfl, Nat.zero_le 1⟩
    _ = valueFrom? limit (.having x pending) following := rfl

theorem application {argument : Derivation .unary p} (f : NamedFunction)
    (hargument : argument.IsRead limit) : (Derivation.application f argument).IsRead limit := by
  rintro pending following _ ⟨hclosed, hstop⟩ hdepth hvalue hfits
  obtain ⟨y, hy, rfl⟩ := Option.map_eq_some_iff.1 hvalue
  simp only [depth] at hdepth
  calc
    valueFrom? limit (.awaiting pending) (.function f :: p ++ following) =
        valueFrom? limit (.awaiting (.argument f :: pending)) (p ++ following) :=
      (opens_function f).valueFrom? (by omega)
    _ = valueFrom? limit (.having y (.argument f :: pending)) following :=
      hargument hclosed (by rw [nesting_argument]; omega) hy hstop
    _ = valueFrom? limit (.having (f.apply y) pending) following :=
      valueFrom?_complete (Nat.succ_ne_zero 1) hstop

end Derivation.IsRead

/-- Reading a phrase leaves its value. -/
theorem Derivation.isRead (d : Derivation level p) : d.IsRead limit := by
  induction d with
  | sum _ _ hop _ ihleft ihright => exact ihleft.sum hop ihright
  | times _ _ hop _ ihleft ihright => exact ihleft.times hop ihright
  | juxtaposition _ hhead _ ihleft ihright => exact ihleft.juxtaposition hhead ihright
  | raised _ _ ihbase ihexponent => exact ihbase.raised ihexponent
  | minus _ ih => exact ih.minus
  | factorial _ ih => exact ih.factorial
  | percent _ ih => exact ih.percent
  | group _ ih => exact ih.group
  | application f _ ih => exact ih.application f
  | number z =>
    rintro pending following _ - - ⟨⟩ -
    rfl
  | constant c =>
    rintro pending following _ - - ⟨⟩ -
    rfl
  -- the levels between are phrases of the next stronger one
  | product _ ih =>
    intro pending following x hclosed hdepth hvalue hfits
    exact ih hclosed hdepth hvalue ⟨hfits.1.le.trans (Nat.zero_le 1), hfits.2.trans (by decide)⟩
  | factor _ ih =>
    intro pending following x hclosed hdepth hvalue hfits
    exact ih hclosed hdepth hvalue hfits.2
  | plus _ ih | unsigned _ ih =>
    intro pending following x hclosed hdepth hvalue hfits
    exact ih hclosed hdepth hvalue hfits
  | unraised _ ih | bare _ ih =>
    intro pending following x hclosed hdepth hvalue hfits
    exact ih hclosed hdepth hvalue trivial

/-! ## From values to derivations -/

/-- A phrase of a level at the head of some tokens, in front of a token that binds at
most as strongly as given, whose value leads to the value of the whole. -/
inductive HasPhrase (limit : Nat) (level : Level) (bound : Nat) (pending : List Pending)
    (tokens : List Token) (value : Float) : Prop
  | intro (p rest : List Token) (d : Derivation level p) (x : Float) (htokens : tokens = p ++ rest)
      (hclosed : d.ClosedArguments rest) (hdepth : d.depth + nesting pending ≤ limit)
      (hvalue : d.value? = some x) (hbinding : headBinding rest ≤ bound)
      (hrest : valueFrom? limit (.having x pending) rest = some value)

/-- Whether all successful runs on so many tokens read a unary operand first. -/
def ReadsUnary (limit count : Nat) : Prop :=
  ∀ pending tokens value, tokens.length ≤ count → nesting pending ≤ limit →
    valueFrom? limit (.awaiting pending) tokens = some value →
    HasPhrase limit .unary 2 pending tokens value

theorem Derivation.ne_nil (d : Derivation level p) : p ≠ [] := by
  induction d <;> simp_all

/-- Behind a factor, the factors that it is multiplied with. -/
theorem hasPhrase_product {count : Nat} (hunary : ReadsUnary limit count)
    (hpending : headStrength pending ≤ 1) (hnesting : nesting pending ≤ limit)
    (hcount : rest.length ≤ count) (d : Derivation .multiplicative p)
    (hclosed : d.ClosedArguments rest) (hdepth : d.depth + nesting pending ≤ limit)
    (hvalue : d.value? = some x) (hbinding : headBinding rest ≤ 2)
    (hrest : valueFrom? limit (.having x pending) rest = some value) :
    HasPhrase limit .multiplicative 1 pending (p ++ rest) value := by
  induction hlength : rest.length using Nat.strong_induction_on generalizing rest p x with
  | h length ih =>
    subst hlength
    by_cases hdone : headBinding rest ≤ 1
    · exact ⟨p, rest, d, x, rfl, hclosed, hdepth, hvalue, hdone, hrest⟩
    cases rest with
    | nil => exact absurd (Nat.zero_le 1) hdone
    | cons token rest =>
      have htwo : token.binding = 2 := by
        simp only [headBinding] at hdone hbinding
        omega
      by_cases hstarts : token.startsFactor = true
      · rw [valueFrom?_startsFactor hstarts (by omega)] at hrest
        obtain ⟨q, rest', e, y, htokens, hclosed', hdepth', hvalue', hbinding', hrest'⟩ :=
          hunary _ (token :: rest) _ hcount (by rwa [nesting_binary]) hrest
        obtain ⟨head, q, rfl⟩ := List.exists_cons_of_ne_nil e.ne_nil
        rw [List.cons_append, List.cons.injEq] at htokens
        obtain ⟨rfl, rfl⟩ := htokens
        rw [valueFrom?_complete_binary hbinding'] at hrest'
        rw [nesting_binary] at hdepth'
        simp only [List.length_cons, List.length_append] at hcount ih
        have hmore := ih rest'.length (by omega) (by omega)
          (.juxtaposition d (Token.startsFactor_iff.1 hstarts) e) ⟨hclosed, hclosed'⟩
          (by simp only [Derivation.depth]; omega)
          (onScalars?_eq_some_iff.2 ⟨x, y, hvalue, hvalue', rfl⟩) hbinding' hrest' rfl
        simpa using hmore
      · obtain ⟨op, rfl, hop⟩ := Token.exists_multiplicative htwo hstarts
        have hstrength : (Pending.binary x op).strength = 2 := strength_binary_multiplicative hop
        rw [valueFrom?_operator (by omega)] at hrest
        simp only [List.length_cons] at hcount
        obtain ⟨q, rest', e, y, rfl, hclosed', hdepth', hvalue', hbinding', hrest'⟩ :=
          hunary _ _ _ (by omega) (by rwa [nesting_binary]) hrest
        rw [valueFrom?_complete_binary (hbinding'.trans hstrength.ge)] at hrest'
        rw [nesting_binary] at hdepth'
        simp only [List.length_cons, List.length_append] at hcount ih
        have hmore := ih rest'.length (by omega) (by omega)
          (.times d op hop e) ⟨hclosed, hclosed'⟩ (by simp only [Derivation.depth]; omega)
          (onScalars?_eq_some_iff.2 ⟨x, y, hvalue, hvalue', rfl⟩) hbinding' hrest' rfl
        simpa using hmore

theorem hasPhrase_multiplicative {count : Nat} (hunary : ReadsUnary limit count)
    (hpending : headStrength pending ≤ 1) (hnesting : nesting pending ≤ limit)
    (hcount : tokens.length ≤ count)
    (hrun : valueFrom? limit (.awaiting pending) tokens = some value) :
    HasPhrase limit .multiplicative 1 pending tokens value := by
  obtain ⟨p, rest, d, x, rfl, hclosed, hdepth, hvalue, hbinding, hrest⟩ :=
    hunary _ _ _ hcount hnesting hrun
  rw [List.length_append] at hcount
  exact hasPhrase_product hunary hpending hnesting (by omega) (.factor d) hclosed hdepth hvalue
    hbinding hrest

/-- Behind a product, the products that are added to it. -/
theorem hasPhrase_sum {count : Nat} (hunary : ReadsUnary limit count)
    (hpending : headStrength pending = 0) (hnesting : nesting pending ≤ limit)
    (hcount : rest.length ≤ count) (d : Derivation .additive p)
    (hclosed : d.ClosedArguments rest) (hdepth : d.depth + nesting pending ≤ limit)
    (hvalue : d.value? = some x) (hbinding : headBinding rest ≤ 1)
    (hrest : valueFrom? limit (.having x pending) rest = some value) :
    HasPhrase limit .additive 0 pending (p ++ rest) value := by
  induction hlength : rest.length using Nat.strong_induction_on generalizing rest p x with
  | h length ih =>
    subst hlength
    by_cases hdone : headBinding rest ≤ 0
    · exact ⟨p, rest, d, x, rfl, hclosed, hdepth, hvalue, hdone, hrest⟩
    cases rest with
    | nil => exact absurd (Nat.zero_le 0) hdone
    | cons token rest =>
      have hone : token.binding = 1 := by
        simp only [headBinding] at hdone hbinding
        omega
      obtain ⟨op, rfl, hop⟩ := Token.exists_additive hone
      have hstrength : (Pending.binary x op).strength = 1 := strength_binary_additive hop
      rw [valueFrom?_operator (by omega)] at hrest
      simp only [List.length_cons] at hcount
      obtain ⟨q, rest', e, y, rfl, hclosed', hdepth', hvalue', hbinding', hrest'⟩ :=
        hasPhrase_multiplicative hunary
          (show headStrength (.binary x op :: pending) ≤ 1 from hstrength.le)
          (by rwa [nesting_binary]) (by omega) hrest
      rw [valueFrom?_complete_binary (hbinding'.trans hstrength.ge)] at hrest'
      rw [nesting_binary] at hdepth'
      simp only [List.length_cons, List.length_append] at hcount ih
      have hmore := ih rest'.length (by omega) (by omega)
        (.sum d op hop e) ⟨hclosed, hclosed'⟩ (by simp only [Derivation.depth]; omega)
        (onScalars?_eq_some_iff.2 ⟨x, y, hvalue, hvalue', rfl⟩) hbinding' hrest' rfl
      simpa using hmore

theorem hasPhrase_additive {count : Nat} (hunary : ReadsUnary limit count)
    (hpending : headStrength pending = 0) (hnesting : nesting pending ≤ limit)
    (hcount : tokens.length ≤ count)
    (hrun : valueFrom? limit (.awaiting pending) tokens = some value) :
    HasPhrase limit .additive 0 pending tokens value := by
  obtain ⟨p, rest, d, x, rfl, hclosed, hdepth, hvalue, hbinding, hrest⟩ :=
    hasPhrase_multiplicative hunary (by omega) hnesting hcount hrun
  rw [List.length_append] at hcount
  exact hasPhrase_sum hunary hpending hnesting (by omega) (.product d) hclosed hdepth hvalue
    hbinding hrest

/-- Behind an operand, its postfix signs and its exponent. -/
theorem hasPhrase_power {count : Nat} (hunary : ReadsUnary limit count)
    (hnesting : nesting pending ≤ limit) (hcount : rest.length ≤ count)
    (d : Derivation .suffixed p) (hclosed : d.ClosedArguments rest)
    (hdepth : d.depth + nesting pending ≤ limit) (hvalue : d.value? = some x)
    (hrest : valueFrom? limit (.having x pending) rest = some value) :
    HasPhrase limit .power 2 pending (p ++ rest) value := by
  induction rest generalizing p x with
  | nil => exact ⟨p, [], .unraised d, x, rfl, hclosed, hdepth, hvalue, Nat.zero_le 2, hrest⟩
  | cons token rest ih =>
    by_cases hdone : token.binding ≤ 2
    · exact ⟨p, _, .unraised d, x, rfl, hclosed, hdepth, hvalue, hdone, hrest⟩
    have hthree : token.binding = 3 := by
      have := token.binding_le_three
      omega
    rw [List.length_cons] at hcount
    rcases Token.eq_of_binding_eq_three hthree with rfl | rfl | rfl
    · rw [valueFrom?, readToken?_factorial] at hrest
      cases hfactorial : factorial? x with
      | none => simp [hfactorial] at hrest
      | some y =>
        rw [hfactorial] at hrest
        have hvalue' : d.factorial.value? = some y := by
          simp [Derivation.value?, hvalue, hfactorial]
        simpa using ih (by omega) d.factorial hclosed hdepth hvalue' hrest
    · have hvalue' : d.percent.value? = some (x / 100.0) := by
        simp [Derivation.value?, hvalue]
      simpa using ih (by omega) d.percent hclosed hdepth hvalue' hrest
    · rw [valueFrom?_operator (headStrength_lt_three pending)] at hrest
      obtain ⟨q, rest', e, y, rfl, hclosed', hdepth', hvalue', hbinding, hrest'⟩ :=
        hunary _ _ _ (by omega) (by rwa [nesting_binary]) hrest
      rw [valueFrom?_complete_binary hbinding] at hrest'
      rw [nesting_binary] at hdepth'
      exact ⟨_, rest', .raised d e, _, by simp, ⟨hclosed, hclosed'⟩,
        by simp only [Derivation.depth]; omega,
        onScalars?_eq_some_iff.2 ⟨x, y, hvalue, hvalue', rfl⟩, hbinding, hrest'⟩

theorem hasPhrase_of_primary {count : Nat} (hunary : ReadsUnary limit count)
    (hnesting : nesting pending ≤ limit) (hcount : rest.length ≤ count)
    (d : Derivation .primary p) (hclosed : d.ClosedArguments rest)
    (hdepth : d.depth + nesting pending ≤ limit) (hvalue : d.value? = some x)
    (hrest : valueFrom? limit (.having x pending) rest = some value) :
    HasPhrase limit .unary 2 pending (p ++ rest) value := by
  obtain ⟨q, rest', e, y, htokens, hclosed', hdepth', hvalue', hbinding, hrest'⟩ :=
    hasPhrase_power hunary hnesting hcount (.bare d) hclosed hdepth hvalue hrest
  exact ⟨q, rest', .unsigned e, y, htokens, hclosed', hdepth', hvalue', hbinding, hrest'⟩

/-- No numeral stands behind a value. -/
theorem valueFrom?_number (z : Float) :
    valueFrom? limit (.having x pending) (.number z :: tokens) = none := rfl

/-- Behind an expression in a group stands the parenthesis that closes it. -/
theorem exists_rightParen (hbinding : headBinding rest ≤ 0)
    (hrest : valueFrom? limit (.having x (.group :: pending)) rest = some value) :
    ∃ rest', rest = .rightParen :: rest' ∧
      valueFrom? limit (.having x pending) rest' = some value := by
  cases rest with
  | nil => simp [valueFrom?, closedValue?, Progress.having, Pending.isGroup] at hrest
  | cons token rest =>
    rcases Token.eq_of_binding_eq_zero (Nat.le_zero.1 hbinding) with rfl | ⟨z, rfl⟩
    · exact ⟨rest, rfl, hrest⟩
    · simp [valueFrom?_number] at hrest

/-- Behind a parenthesis, an expression, the parenthesis that closes it and what goes on
with the group. -/
theorem hasPhrase_group {count : Nat} (hunary : ReadsUnary limit count)
    (hcount : tokens.length ≤ count)
    (hrun : valueFrom? limit (.awaiting pending) (.leftParen :: tokens) = some value) :
    HasPhrase limit .unary 2 pending (.leftParen :: tokens) value := by
  have hnest := opens_leftParen.nesting_lt hrun
  rw [opens_leftParen.valueFrom? hnest] at hrun
  obtain ⟨p, rest, d, x, rfl, hclosed, hdepth, hvalue, hbinding, hrest⟩ :=
    hasPhrase_additive hunary (show headStrength (.group :: pending) = 0 from rfl)
      (by rw [nesting_group]; exact hnest) hcount hrun
  obtain ⟨rest, rfl, hrest⟩ := exists_rightParen hbinding hrest
  rw [nesting_group] at hdepth
  simp only [List.length_append, List.length_cons] at hcount
  have hgroup := hasPhrase_of_primary hunary hnest.le (by omega) (.group d) hclosed
    (by simp only [Derivation.depth]; omega) hvalue hrest
  simpa using hgroup

/-- Behind a function, its argument and what goes on with the application. -/
theorem hasPhrase_application {count : Nat} {f : NamedFunction} (hunary : ReadsUnary limit count)
    (hcount : tokens.length ≤ count)
    (hrun : valueFrom? limit (.awaiting pending) (.function f :: tokens) = some value) :
    HasPhrase limit .unary 2 pending (.function f :: tokens) value := by
  have hnest := (opens_function f).nesting_lt hrun
  rw [(opens_function f).valueFrom? hnest] at hrun
  obtain ⟨p, rest, d, x, rfl, hclosed, hdepth, hvalue, hbinding, hrest⟩ :=
    hunary (.argument f :: pending) tokens value hcount
      (by rw [nesting_argument]; exact hnest) hrun
  have hstrong : (Pending.argument f).strength ≠ 0 := Nat.succ_ne_zero 1
  rw [valueFrom?_complete hstrong hbinding] at hrest
  rw [nesting_argument] at hdepth
  simp only [List.length_append] at hcount
  exact hasPhrase_of_primary hunary hnest.le (by omega) (.application f d) ⟨hclosed, hbinding⟩
    (by simp only [Derivation.depth]; omega)
    (by simp [Derivation.value?, hvalue, Pending.complete]) hrest

/-- Behind the whole expression stands nothing. -/
theorem eq_nil_of_headBinding (hbinding : headBinding rest ≤ 0)
    (hrest : valueFrom? limit (.having x []) rest = some value) : rest = [] := by
  cases rest with
  | nil => rfl
  | cons token rest =>
    rcases Token.eq_of_binding_eq_zero (Nat.le_zero.1 hbinding) with rfl | ⟨z, rfl⟩
    · simp [valueFrom?, readToken?_rightParen, close] at hrest
    · simp [valueFrom?_number] at hrest

/-- A successful run reads a unary operand first. -/
theorem readsUnary (limit count : Nat) : ReadsUnary limit count := by
  induction count with
  | zero =>
    intro pending tokens value hcount hnesting hrun
    obtain rfl : tokens = [] := List.eq_nil_of_length_eq_zero (by omega)
    simp [valueFrom?, closedValue?, Progress.awaiting] at hrun
  | succ count ih =>
    intro pending tokens value hcount hnesting hrun
    cases tokens with
    | nil => simp [valueFrom?, closedValue?, Progress.awaiting] at hrun
    | cons token tokens =>
      rw [List.length_cons] at hcount
      have hrefused : ∀ {token}, readToken? limit (.awaiting pending) token = none →
          valueFrom? limit (.awaiting pending) (token :: tokens) ≠ some value := by
        intro token hread
        simp [valueFrom?, hread]
      cases token with
      | number z =>
        have hdepth : (Derivation.number z).depth + nesting pending ≤ limit := by
          simpa [Derivation.depth] using hnesting
        exact hasPhrase_of_primary ih hnesting (by omega) (.number z) trivial hdepth rfl hrun
      | constant c =>
        have hdepth : (Derivation.constant c).depth + nesting pending ≤ limit := by
          simpa [Derivation.depth] using hnesting
        exact hasPhrase_of_primary ih hnesting (by omega) (.constant c) trivial hdepth rfl hrun
      | percent | factorial | rightParen => exact absurd hrun (hrefused rfl)
      | operator op =>
        cases op with
        | add =>
          obtain ⟨p, rest, d, x, rfl, hclosed, hdepth, hvalue, hbinding, hrest⟩ :=
            ih pending tokens value (by omega) hnesting hrun
          exact ⟨_, rest, .plus d, x, rfl, hclosed, hdepth, hvalue, hbinding, hrest⟩
        | sub =>
          obtain ⟨p, rest, d, x, rfl, hclosed, hdepth, hvalue, hbinding, hrest⟩ :=
            ih (.negation :: pending) tokens value (by omega) (by rwa [nesting_negation]) hrun
          have hstrong : Pending.negation.strength ≠ 0 := Nat.succ_ne_zero 1
          rw [valueFrom?_complete hstrong hbinding] at hrest
          refine ⟨_, rest, .minus d, -x, rfl, hclosed, ?_, ?_, hbinding, hrest⟩
          · rwa [nesting_negation] at hdepth
          · simp [Derivation.value?, hvalue]
        | pow | mul | div | mod => exact absurd hrun (hrefused rfl)
      | leftParen => exact hasPhrase_group ih (by omega) hrun
      | function f => exact hasPhrase_application ih (by omega) hrun

/-! ## Expressions -/

/-- Some tokens have a value exactly when they have a derivation with this value. -/
theorem valueFrom?_start_eq_some_iff :
    valueFrom? limit .start tokens = some value ↔
      ∃ d : Derivation .additive tokens,
        d.LongestArguments [] ∧ d.depth ≤ limit ∧ d.value? = some value := by
  have hexponent : Derivation.HasExponent [] := nofun
  constructor
  · intro hrun
    obtain ⟨p, rest, d, x, rfl, hclosed, hdepth, hvalue, hbinding, hrest⟩ :=
      hasPhrase_additive (readsUnary limit tokens.length) (show headStrength [] = 0 from rfl)
        (Nat.zero_le limit) le_rfl hrun
    obtain rfl := eq_nil_of_headBinding hbinding hrest
    rw [List.append_nil]
    refine ⟨d, (d.longestArguments_iff hexponent).2 hclosed, hdepth, ?_⟩
    rw [hvalue]
    exact hrest
  · rintro ⟨d, hlongest, hdepth, hvalue⟩
    have hread := d.isRead ((d.longestArguments_iff hexponent).1 hlongest)
      (show d.depth + nesting [] ≤ limit from hdepth) hvalue ⟨rfl, Nat.zero_le 1⟩
    rw [List.append_nil] at hread
    rw [Progress.start, ← Progress.awaiting, hread]
    rfl

/-- The value of an expression is the value of a derivation of its tokens, or of these
with one parenthesis at the end, in which every argument is the longest operand there
is, no more parentheses and arguments are nested than the limit allows, and every
factorial is one of a whole number from 0 to 170. -/
theorem valueOf_eq_ok_iff_exists_derivation (limit : Nat) (lexemes : List Lexeme) (value : Float) :
    valueOf limit lexemes = .ok value ↔
      ∃ tokens, (tokens = lexemes.map Lexeme.token ∨
          tokens = lexemes.map Lexeme.token ++ [.rightParen]) ∧
        ∃ d : Derivation .additive tokens,
          d.LongestArguments [] ∧ d.depth ≤ limit ∧ d.value? = some value := by
  simp only [valueOf_eq_ok_iff, valueFrom?_start_eq_some_iff, or_and_right, exists_or,
    exists_eq_left]

end MatrixCalculator.Scalar
