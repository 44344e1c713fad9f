import MatrixCalculator.Matrix.Decomposition
import MatrixCalculator.Proofs.Numeral.Written
import MatrixCalculator.Proofs.Scalar.Chains

/-!
# Flat chains as scalar expressions

Numerals with operators between them, and a sign in front of any numeral that is not
the base of a power.  The precedence tree of such a chain is a derivation of its
tokens, so the scalar evaluator finds the value of the tree.
-/

namespace MatrixCalculator

open Chain Numeral Outcome

/-- Whether no base of a power has a sign of its own: there the sign would be one of
the power. -/
def UnsignedBases : SignedSpelling → Links SignedSpelling → Prop
  | _, [] => True
  | first, (op, next) :: links =>
    (op = .pow → first.negative = false) ∧ UnsignedBases next links

structure FlatChain where
  first : SignedSpelling
  links : Links SignedSpelling
  unsigned : UnsignedBases first links

def chainText : SignedSpelling → Links SignedSpelling → Text
  | first, [] => first.text
  | first, (op, next) :: links => first.text ++ (op.symbol ++ chainText next links)

def FlatChain.text (chain : FlatChain) : Text := chainText chain.first chain.links

def chainValues (links : Links SignedSpelling) : Links Operand :=
  links.map fun link => (link.1, .scalar link.2.value)

/-- The precedence tree of a chain, whose operators stand from a place on. -/
def chainTree (home : Nat) (first : SignedSpelling) (links : Links SignedSpelling) :
    Chain.Tree Operand :=
  tree home (.scalar first.value) (chainValues links)

namespace Scalar

variable {first next : SignedSpelling} {links : Links SignedSpelling} {rest : Text}

/-! ## Tokens -/

def signedTokens (s : SignedSpelling) : List Token :=
  if s.negative then [.operator .sub, .number s.magnitude.value] else [.number s.magnitude.value]

def chainTokens : SignedSpelling → Links SignedSpelling → List Token
  | first, [] => signedTokens first
  | first, (op, next) :: links => signedTokens first ++ .operator op :: chainTokens next links

theorem endsWord_spelling (s : Spelling) : EndsWord (s.text ++ rest) := by
  obtain ⟨c, others, htext, hc⟩ := s.exists_cons
  rw [htext]
  rintro _ ⟨⟩
  exact of_isDigit (fun c => c.isAlpha = false) (List.all_iff_forall_prop.1 (by decide)) hc

theorem endsWord_signed (s : SignedSpelling) : EndsWord (s.text ++ rest) := by
  obtain ⟨negative, magnitude⟩ := s
  cases negative with
  | true =>
    rintro _ ⟨⟩
    decide
  | false => exact endsWord_spelling magnitude

theorem endsWord_chainText (first : SignedSpelling) (links : Links SignedSpelling) :
    EndsWord (chainText first links ++ rest) := by
  cases links with
  | nil => exact endsWord_signed first
  | cons link links =>
    rw [chainText, List.append_assoc]
    exact endsWord_signed first

theorem endsNumeral_symbol (op : Operator) : EndsNumeral (op.symbol ++ rest) := by
  cases op <;> rintro _ ⟨⟩ <;> decide

theorem lexes_signed (s : SignedSpelling) {tokens : List Token} (hrest : EndsNumeral rest)
    (htokens : Lexes rest tokens) : Lexes (s.text ++ rest) (signedTokens s ++ tokens) := by
  obtain ⟨negative, magnitude⟩ := s
  have hmagnitude := lexes_numeral magnitude hrest htokens
  cases negative with
  | true => exact lexes_operator .sub (fun _ => endsWord_spelling magnitude) hmagnitude
  | false => exact hmagnitude

/-- The text of a chain is read as the tokens of its numerals and operators. -/
theorem lexes_chain (first : SignedSpelling) (links : Links SignedSpelling) {tokens : List Token}
    (hrest : EndsNumeral rest) (htokens : Lexes rest tokens) :
    Lexes (chainText first links ++ rest) (chainTokens first links ++ tokens) := by
  induction links generalizing first with
  | nil => exact lexes_signed first hrest htokens
  | cons link links ih =>
    obtain ⟨op, next⟩ := link
    have hnext := lexes_operator op (fun _ => endsWord_chainText next links) (ih next)
    rw [chainText, chainTokens, List.append_assoc, List.append_assoc, List.append_assoc]
    exact lexes_signed first (endsNumeral_symbol op) hnext

/-! ## Operands -/

theorem chainTokens_eq (first : SignedSpelling) (links : Links SignedSpelling) :
    chainTokens first links = linkTokens signedTokens first links := by
  induction links generalizing first with
  | nil => rfl
  | cons link links ih => rw [chainTokens, linkTokens, ih]

theorem derives_signed (s : SignedSpelling) : Derives 0 .unary (signedTokens s) s.value := by
  obtain ⟨negative, magnitude⟩ := s
  have hmagnitude := (derivesBase_number 0 magnitude.value).operand
  cases negative with
  | true => exact hmagnitude.minus
  | false => exact hmagnitude

theorem derivesBase_signed {s : SignedSpelling} (hunsigned : s.negative = false) :
    DerivesBase 0 (signedTokens s) s.value := by
  rw [signedTokens, SignedSpelling.value, hunsigned]
  exact derivesBase_number 0 s.magnitude.value

theorem areOperands_of_unsignedBases (hbases : UnsignedBases first links) :
    AreOperands signedTokens SignedSpelling.value 0 first links := by
  induction links generalizing first with
  | nil => exact derives_signed first
  | cons link links ih =>
    refine ⟨?_, ih hbases.2⟩
    split
    · next hpow => exact derivesBase_signed (hbases.1 hpow)
    · exact derives_signed first

/-- The value of the tree of a chain of numerals. -/
theorem chainTree_eval (first : SignedSpelling) (links : Links SignedSpelling) :
    (chainTree 0 first links).eval Operator.apply =
      .ok (.scalar (linkValue Operator.onScalars SignedSpelling.value first links)) := by
  have hrun : ∀ op x y,
      Operator.apply op (.scalar x) (.scalar y) = .ok (.scalar (op.onScalars x y)) :=
    fun _ _ _ => rfl
  rw [linkValue, ← eval_tree_map hrun 0 0, List.map_map]
  rfl

/-! ## Values -/

/-- The scalar evaluator finds the value of the precedence tree of a chain. -/
theorem evaluate_chain (chain : FlatChain) (limit : Nat) :
    ∃ x, (chainTree 0 chain.first chain.links).eval Operator.apply = .ok (.scalar x) ∧
      evaluate limit chain.text = if x.isNaN then .error .notANumber else .ok x := by
  have htokens : Lexes chain.text (linkTokens signedTokens chain.first chain.links) := by
    have hchain := lexes_chain chain.first chain.links endsNumeral_nil lexes_nil
    rwa [List.append_nil, List.append_nil, chainTokens_eq] at hchain
  exact ⟨_, chainTree_eval chain.first chain.links,
    evaluate_of_areOperands htokens (areOperands_of_unsignedBases chain.unsigned)
      (Nat.zero_le limit)⟩

/-! ## Written numbers -/

theorem endsWord_nil : EndsWord [] := nofun

theorem lexes_infinity : Lexes infinityWord [.constant .infinity] := by
  have hletters : ∀ c ∈ infinityWord, c.isAlpha = true := List.all_iff_forall_prop.1 (by decide)
  have hword : Lexes ('I' :: "nfinity".toList ++ []) [.constant .infinity] :=
    lexes_word hletters (by decide) (by decide) (by decide) (by rfl) endsWord_nil lexes_nil
  rwa [List.append_nil] at hword

theorem evaluate_signed (s : SignedSpelling) (limit : Nat) :
    evaluate limit s.text = .ok s.value := by
  obtain ⟨x, hx, hvalue⟩ := evaluate_chain ⟨s, [], trivial⟩ limit
  rw [chainTree, chainValues, List.map_nil, tree_nil] at hx
  cases hx
  rw [s.not_isNaN_value] at hvalue
  exact hvalue

theorem derives_infinity : Derives 0 .unary [.constant .infinity] infinity :=
  ⟨.unsigned (.unraised (.bare (.constant .infinity))), Nat.le_refl 0, rfl, fun _ _ => trivial⟩

/-- An infinite number is written as a word with an optional sign. -/
theorem exists_lexes_infinite {x : Float} (hx : x.isInf = true) :
    ∃ tokens, Lexes (write x) tokens ∧ Derives 0 .unary tokens x := by
  rw [write_of_isInf hx, signed]
  cases hsign : isNegative x with
  | true =>
    have hminus : Lexes ('-' :: infinityWord) [.operator .sub, .constant .infinity] :=
      lexes_symbol (by decide) (by decide) (by decide) (by decide) (by rfl) lexes_infinity
    exact ⟨_, hminus, neg_infinity_of_isNegative hx hsign ▸ derives_infinity.minus⟩
  | false =>
    exact ⟨_, lexes_infinity, infinity_of_not_isNegative hx hsign ▸ derives_infinity⟩

theorem evaluate_infinite {x : Float} (hx : x.isInf = true) (limit : Nat) :
    evaluate limit (write x) = .ok x := by
  obtain ⟨tokens, htokens, hderives⟩ := exists_lexes_infinite hx
  rw [evaluate_of_derives htokens hderives.factor.product (Nat.zero_le limit),
    not_isNaN_of_isInf hx]
  rfl

/-- A written number is the expression of the number shown. -/
theorem evaluate_write {x : Float} (hx : x.isNaN = false) (limit : Nat) :
    evaluate limit (write x) = .ok (shown x) := by
  rcases kind_cases x with hkind | hkind | hkind
  · obtain ⟨s, htext, hvalue⟩ := spellsDouble_write hkind
    rw [← htext, evaluate_signed, hvalue]
  · rw [evaluate_infinite hkind, shown_of_not_isFinite (not_isFinite_of_isInf hkind)]
  · rw [hx] at hkind
    cases hkind

/-- The word for what is not a number is no expression. -/
theorem evaluate_write_of_isNaN {x : Float} (hx : x.isNaN = true) (limit : Nat) :
    evaluate limit (write x) = .error (.unknownSymbol notANumberWord) := by
  have hscan : lexemes notANumberWord = .error (.unknownSymbol notANumberWord) := by
    rw [lexemes, lexemesFrom.eq_def]
    rfl
  rw [write_of_isNaN hx, evaluate, hscan]
  rfl

end Scalar

end MatrixCalculator
