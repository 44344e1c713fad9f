import MatrixCalculator.NamedFunction
import MatrixCalculator.Proofs.Chain.Values
import MatrixCalculator.Proofs.Numeral.Written

/-!
# Chains with unary forms

The operands of a chain may carry one unary form each: a sign, a percent mark or the
name of a function.  Such a chain is read in two ways: with the form as part of its
operand, and with every percent mark spelled out as a factor behind its numeral.  In
exact arithmetic both ways have the same value wherever no operator binds tighter than
a form beside it.
-/

namespace MatrixCalculator

open Chain Numeral

abbrev FunctionName := {entry : Text × NamedFunction // entry ∈ NamedFunction.spellings}

/-- What a numeral may carry. -/
inductive UnaryForm where
  | bare
  | negated
  | percent
  | applied (name : FunctionName)
  deriving DecidableEq

def UnaryForm.isWord : UnaryForm → Bool
  | applied name => name.1.1.all Char.isAlpha
  | _ => false

structure UnaryTerm where
  form : UnaryForm
  numeral : Spelling

def UnaryTerm.text (t : UnaryTerm) : Text :=
  match t.form with
  | .bare => t.numeral.text
  | .negated => '-' :: t.numeral.text
  | .percent => t.numeral.text ++ ['%']
  | .applied name => name.1.1 ++ t.numeral.text

def linkText {β : Type} (text : β → Text) (links : Links β) : Text :=
  links.flatMap fun link => link.1.symbol ++ text link.2

def unaryText (first : UnaryTerm) (links : Links UnaryTerm) : Text :=
  first.text ++ linkText UnaryTerm.text links

theorem unaryText_nil (first : UnaryTerm) : unaryText first [] = first.text := List.append_nil _

theorem unaryText_cons (first next : UnaryTerm) (op : Operator) (links : Links UnaryTerm) :
    unaryText first ((op, next) :: links) = first.text ++ (op.symbol ++ unaryText next links) := by
  simp [unaryText, linkText]

theorem unaryText_append (first next : UnaryTerm) (op : Operator) (left right : Links UnaryTerm) :
    unaryText first (left ++ (op, next) :: right) =
      unaryText first left ++ (op.symbol ++ unaryText next right) := by
  simp [unaryText, linkText]

/-! ## Percent marks as factors -/

def hundredth : Spelling where
  whole := .single '0' (by decide)
  fraction := some ((DigitText.single '0' (by decide)).append (.single '1' (by decide)))
  exponent := none

namespace UnaryTerm

def spelled (t : UnaryTerm) : UnaryTerm :=
  if t.form = .percent then ⟨.bare, t.numeral⟩ else t

/-- The factor that a percent mark is. -/
def percentLinks (t : UnaryTerm) : Links UnaryTerm :=
  if t.form = .percent then [(.mul, ⟨.bare, hundredth⟩)] else []

end UnaryTerm

def spelledLinks (first : UnaryTerm) (links : Links UnaryTerm) : Links UnaryTerm :=
  first.percentLinks ++ links.flatMap fun link => (link.1, link.2.spelled) :: link.2.percentLinks

theorem spelledLinks_append (first next : UnaryTerm) (op : Operator)
    (left right : Links UnaryTerm) :
    spelledLinks first (left ++ (op, next) :: right) =
      spelledLinks first left ++ (op, next.spelled) :: spelledLinks next right := by
  simp [spelledLinks]

/-! ## Interpretations -/

/-- What the numerals, the unary forms and the operators stand for. -/
structure Arithmetic (α : Type) where
  numeral : Spelling → α
  negate : α → α
  percent : α → α
  function : NamedFunction → α → α
  apply : Operator → α → α → α

namespace Arithmetic

def doubles : Arithmetic Float where
  numeral := Spelling.value
  negate x := -x
  percent x := x / 100.0
  function := NamedFunction.apply
  apply := Operator.onScalars

/-- The arithmetic of doubles in which the values of functions are written and read. -/
def writtenDoubles : Arithmetic Float :=
  { doubles with function := fun f x => shown (f.apply x) }

/-- Exact arithmetic, in which nothing is known of powers, remainders and functions.
There is no quotient by zero, and what has no value has none inside anything else. -/
def exact (power modulo : Rat → Rat → Option Rat) (function : NamedFunction → Rat → Option Rat) :
    Arithmetic (Option Rat) where
  numeral s := some s.decimal.toRat
  negate := Option.map Neg.neg
  percent := Option.map (· / 100)
  function f x := x.bind (function f)
  apply op x y := x.bind fun x => y.bind fun y =>
    match op with
    | .pow => power x y
    | .mul => some (x * y)
    | .div => if y = 0 then none else some (x / y)
    | .mod => modulo x y
    | .add => some (x + y)
    | .sub => some (x - y)

end Arithmetic

def UnaryTerm.value {α : Type} (A : Arithmetic α) (t : UnaryTerm) : α :=
  match t.form with
  | .bare => A.numeral t.numeral
  | .negated => A.negate (A.numeral t.numeral)
  | .percent => A.percent (A.numeral t.numeral)
  | .applied name => A.function name.1.2 (A.numeral t.numeral)

/-- The value of the precedence tree of a chain. -/
def unaryValue {α : Type} (A : Arithmetic α) (first : UnaryTerm) (links : Links UnaryTerm) : α :=
  linkValue A.apply (UnaryTerm.value A) first links

/-! ## Forms beside operators -/

/-- Whether an operator leaves the forms of both operands to them: the base of a power
has no form, only a factor or a term has a percent mark, and no letters of a name stand
beside those of an operator. -/
def Operator.SparesForms (op : Operator) (left right : UnaryTerm) : Prop :=
  (op = .pow → left.form = .bare) ∧
    (right.form = .percent → op = .mul ∨ op.precedence = .additive) ∧
    (op = .mod → right.form.isWord = false)

instance (op : Operator) (left right : UnaryTerm) : Decidable (op.SparesForms left right) :=
  inferInstanceAs (Decidable (_ ∧ _ ∧ _))

/-- Whether all operators of a chain leave the forms to the operands. -/
def BindsAlike : UnaryTerm → Links UnaryTerm → Prop
  | _, [] => True
  | first, (op, next) :: links => op.SparesForms first next ∧ BindsAlike next links

instance BindsAlike.decidable :
    (first : UnaryTerm) → (links : Links UnaryTerm) → Decidable (BindsAlike first links)
  | _, [] => isTrue trivial
  | first, (op, next) :: links =>
    have := BindsAlike.decidable next links
    inferInstanceAs (Decidable (op.SparesForms first next ∧ BindsAlike next links))

variable {first next t : UnaryTerm} {op : Operator} {links left right : Links UnaryTerm}

/-- Both parts of a chain that is cut at an operator. -/
theorem BindsAlike.of_append (hbinds : BindsAlike first (left ++ (op, next) :: right)) :
    BindsAlike first left ∧ (next.form = .percent → op = .mul ∨ op.precedence = .additive) ∧
      BindsAlike next right := by
  induction left generalizing first with
  | nil => exact ⟨trivial, hbinds.1.2.1, hbinds.2⟩
  | cons link left ih =>
    obtain ⟨hleft, hnext, hright⟩ := ih hbinds.2
    exact ⟨⟨hbinds.1, hleft⟩, hnext, hright⟩

theorem UnaryTerm.spelled_of_not_percent (hform : t.form ≠ .percent) : t.spelled = t :=
  if_neg hform

theorem spelledLinks_of_not_percent (hform : first.form ≠ .percent) :
    spelledLinks first [] = [] := by
  rw [spelledLinks, UnaryTerm.percentLinks, if_neg hform]
  rfl

theorem spelledLinks_percent (hform : first.form = .percent) :
    spelledLinks first [] = [(.mul, ⟨.bare, hundredth⟩)] := by
  rw [spelledLinks, UnaryTerm.percentLinks, if_pos hform]
  rfl

/-- A group of powers has no percent mark, unless it is a single operand. -/
theorem percent_or_of_powers {precedence : Precedence} (hgrouped : Grouped precedence first links)
    (hprecedence : precedence = .power) (hbinds : BindsAlike first links) :
    (first.form = .percent ∧ links = []) ∨
      (first.form ≠ .percent ∧ spelledLinks first links = links) := by
  induction hgrouped with
  | operand first =>
    by_cases hform : first.form = .percent
    · exact .inl ⟨hform, rfl⟩
    · exact .inr ⟨hform, spelledLinks_of_not_percent hform⟩
  | @power first next right _ ih =>
    obtain ⟨⟨hbase, hnext, -⟩, hright⟩ := hbinds
    have hform : first.form ≠ .percent := by
      rw [hbase rfl]
      decide
    have hnext : next.form ≠ .percent := fun h => absurd (hnext h) (by decide)
    obtain ⟨hpercent, -⟩ | ⟨-, hlinks⟩ := ih hprecedence hright
    · exact absurd hpercent hnext
    · have hsplit := spelledLinks_append first next .pow [] right
      rw [hlinks, next.spelled_of_not_percent hnext, spelledLinks_of_not_percent hform] at hsplit
      exact .inr ⟨hform, hsplit⟩
  | factor => cases hprecedence
  | product => cases hprecedence
  | term => cases hprecedence
  | sum => cases hprecedence

/-! ## Exact values -/

/-- Whether percents are products with the hundredth part, and whether this factor may
stand behind any product. -/
structure Arithmetic.SpellsPercents {α : Type} (A : Arithmetic α) : Prop where
  percent_eq : ∀ s, A.percent (A.numeral s) = A.apply .mul (A.numeral s) (A.numeral hundredth)
  assoc : ∀ x y, A.apply .mul x (A.apply .mul y (A.numeral hundredth)) =
    A.apply .mul (A.apply .mul x y) (A.numeral hundredth)

theorem Arithmetic.exact_spellsPercents (power modulo : Rat → Rat → Option Rat)
    (function : NamedFunction → Rat → Option Rat) :
    (exact power modulo function).SpellsPercents where
  percent_eq s := by
    have hhundredth : hundredth.decimal.toRat = 1 / 100 := by
      rw [Decimal.toRat, show hundredth.decimal = ⟨1, -2⟩ by decide]
      norm_num
    change some (s.decimal.toRat / 100) = some (s.decimal.toRat * hundredth.decimal.toRat)
    rw [hhundredth, mul_one_div]
  assoc x y := by
    cases x with
    | none => rfl
    | some x =>
      cases y with
      | none => rfl
      | some y => exact congrArg some (mul_assoc x y hundredth.decimal.toRat).symm

section

variable {α : Type} {A : Arithmetic α}

theorem UnaryTerm.value_of_percent (hA : A.SpellsPercents) (hform : t.form = .percent) :
    t.value A = A.apply .mul (t.spelled.value A) (A.numeral hundredth) := by
  rw [spelled, if_pos hform, value, hform]
  exact hA.percent_eq t.numeral

/-- Whether a group is still one when its percent marks are factors, and has the same value. -/
def SpellsAlike (A : Arithmetic α) (precedence : Precedence) (first : UnaryTerm)
    (links : Links UnaryTerm) : Prop :=
  Grouped precedence first.spelled (spelledLinks first links) ∧
    unaryValue A first.spelled (spelledLinks first links) = unaryValue A first links

/-- A percent mark makes a product of a single operand. -/
theorem spellsAlike_of_powers (hA : A.SpellsPercents) (hpower : Grouped .power first links)
    (hbinds : BindsAlike first links) : SpellsAlike A .multiplicative first links := by
  rw [SpellsAlike]
  obtain ⟨hform, rfl⟩ | ⟨hform, hlinks⟩ := percent_or_of_powers hpower rfl hbinds
  · have hfirst : Grouped .multiplicative first.spelled [] := .factor (.operand _)
    rw [spelledLinks_percent hform, unaryValue, unaryValue, linkValue_nil,
      first.value_of_percent hA hform, ← List.nil_append [_], linkValue_concat hfirst rfl,
      linkValue_nil]
    exact ⟨.product hfirst rfl (.operand _), rfl⟩
  · rw [hlinks, first.spelled_of_not_percent hform]
    exact ⟨.factor hpower, rfl⟩

theorem SpellsAlike.times (hA : A.SpellsPercents)
    (hspells : SpellsAlike A .multiplicative first left)
    (hleft : Grouped .multiplicative first left) (hop : op.precedence = .multiplicative)
    (hpower : Grouped .power next right)
    (hbinds : BindsAlike first (left ++ (op, next) :: right)) :
    SpellsAlike A .multiplicative first (left ++ (op, next) :: right) := by
  obtain ⟨hgroup, hvalue⟩ := hspells
  obtain ⟨-, hnext, hright⟩ := hbinds.of_append
  rw [unaryValue, unaryValue] at hvalue
  rw [SpellsAlike, unaryValue, unaryValue, linkValue_product hleft hop hpower, spelledLinks_append]
  obtain ⟨hform, rfl⟩ | ⟨hform, hlinks⟩ := percent_or_of_powers hpower rfl hright
  · -- the mark is one of the last factor, and what it stands for is behind the whole product
    obtain rfl : op = .mul := (hnext hform).resolve_right (by rw [hop]; decide)
    have hproduct : Grouped .multiplicative first.spelled
        (spelledLinks first left ++ [(Operator.mul, next.spelled)]) :=
      .product hgroup rfl (.operand _)
    rw [spelledLinks_percent hform, linkValue_nil, next.value_of_percent hA hform, ← hvalue,
      hA.assoc, List.append_cons, linkValue_concat hproduct rfl, linkValue_concat hgroup rfl]
    exact ⟨.product hproduct rfl (.operand _), rfl⟩
  · rw [hlinks, next.spelled_of_not_percent hform, linkValue_product hgroup hop hpower, hvalue]
    exact ⟨.product hgroup hop hpower, rfl⟩

theorem SpellsAlike.plus (hspells : SpellsAlike A .additive first left)
    (hop : op.precedence = .additive) (hproduct : Grouped .multiplicative next right)
    (hspells' : SpellsAlike A .multiplicative next right) :
    SpellsAlike A .additive first (left ++ (op, next) :: right) := by
  obtain ⟨hgroup, hvalue⟩ := hspells
  obtain ⟨hgroup', hvalue'⟩ := hspells'
  rw [unaryValue, unaryValue] at hvalue hvalue'
  rw [SpellsAlike, spelledLinks_append, unaryValue, unaryValue, linkValue_sum hop hproduct,
    linkValue_sum hop hgroup', hvalue, hvalue']
  exact ⟨.sum hgroup hop hgroup', rfl⟩

/-- On a chain that leaves the forms to its operands the percent marks may be factors. -/
theorem spellsAlike_of_bindsAlike (hA : A.SpellsPercents) {precedence : Precedence}
    (hgrouped : Grouped precedence first links) (hprecedence : precedence ≠ .power)
    (hbinds : BindsAlike first links) : SpellsAlike A precedence first links := by
  induction hgrouped with
  | operand => exact absurd rfl hprecedence
  | power => exact absurd rfl hprecedence
  | factor hpower => exact spellsAlike_of_powers hA hpower hbinds
  | product hleft hop hpower ih =>
    exact (ih hprecedence hbinds.of_append.1).times hA hleft hop hpower hbinds
  | term _ ih =>
    obtain ⟨hgroup, hvalue⟩ := ih (by decide) hbinds
    exact ⟨.term hgroup, hvalue⟩
  | sum _ hop hproduct ihLeft ihRight =>
    exact (ihLeft hprecedence hbinds.of_append.1).plus hop hproduct
      (ihRight (by decide) hbinds.of_append.2.2)

end

/-- In exact arithmetic the percent marks of such a chain may be factors of it. -/
theorem unaryValue_exact (hbinds : BindsAlike first links)
    (power modulo : Rat → Rat → Option Rat) (function : NamedFunction → Rat → Option Rat) :
    unaryValue (.exact power modulo function) first.spelled (spelledLinks first links) =
      unaryValue (.exact power modulo function) first links :=
  (spellsAlike_of_bindsAlike (Arithmetic.exact_spellsPercents power modulo function)
    (grouped first links) (by decide) hbinds).2

end MatrixCalculator
