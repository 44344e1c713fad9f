import MatrixCalculator.Proofs.Scalar.Characters
import MatrixCalculator.Proofs.Scalar.Derivations
import MatrixCalculator.Proofs.Scalar.Lexemes

/-!
# Open parentheses

While a scalar expression is read, every parenthesis that is open is a group that is
pending, and these are limited.  So in an expression with a value no more parentheses
than the limit are open at any place of its text.
-/

namespace MatrixCalculator

namespace Text

variable {depth : Nat} {text left right : Text}

/-- Whether more parentheses than some depth are open somewhere in a text. -/
def NestsDeeper (depth : Nat) (text : Text) : Prop :=
  ∃ before after, text = before ++ after ∧ before.count ')' + depth < before.count '('

def isParenthesis (c : Char) : Bool := c == '(' || c == ')'

/-- The parentheses of a text, without all that stands between them. -/
def parentheses (text : Text) : Text := text.filter isParenthesis

theorem parentheses_append :
    parentheses (left ++ right) = parentheses left ++ parentheses right := List.filter_append ..

theorem parentheses_eq_nil (htext : ∀ c ∈ text, isParenthesis c = false) : parentheses text = [] :=
  List.filter_eq_nil_iff.2 fun c hc => by rw [htext c hc]; exact Bool.false_ne_true

/-- What no parenthesis is, is no parenthesis. -/
theorem not_isParenthesis {p : Char → Prop} {c : Char} (hopen : ¬p '(') (hclose : ¬p ')')
    (hc : p c) : isParenthesis c = false := by
  by_contra hparenthesis
  rw [Bool.not_eq_false, isParenthesis, Bool.or_eq_true, beq_iff_eq, beq_iff_eq] at hparenthesis
  rcases hparenthesis with rfl | rfl
  · exact hopen hc
  · exact hclose hc

/-- How deep parentheses are nested does not depend on what stands between them. -/
theorem nestsDeeper_parentheses :
    NestsDeeper depth (parentheses text) ↔ NestsDeeper depth text := by
  have hcount : ∀ before : Text, (parentheses before).count '(' = before.count '(' ∧
      (parentheses before).count ')' = before.count ')' := fun before =>
    ⟨List.count_filter rfl, List.count_filter rfl⟩
  constructor
  · rintro ⟨left, right, htext, hdeeper⟩
    obtain ⟨before, after, rfl, rfl, rfl⟩ := List.filter_eq_append_iff.1 htext
    refine ⟨before, after, rfl, ?_⟩
    rwa [← (hcount before).1, ← (hcount before).2]
  · rintro ⟨before, after, rfl, hdeeper⟩
    refine ⟨parentheses before, parentheses after, parentheses_append, ?_⟩
    rwa [(hcount before).1, (hcount before).2]

end Text

namespace Scalar

open Numeral Outcome Text

variable {limit : Nat} {x y : Float} {pending rest : List Pending} {progress next : Progress}
  {token : Token} {tokens : List Token} {text : Text} {c : Char} {offset length : Nat}

/-! ## Lexemes -/

def Token.parentheses : Token → Text
  | leftParen => ['(']
  | rightParen => [')']
  | _ => []

theorem not_isParenthesis_of_isDecimalChar (hc : IsDecimalChar c) : isParenthesis c = false :=
  not_isParenthesis (by rw [IsDecimalChar]; decide) (by rw [IsDecimalChar]; decide) hc

theorem not_isParenthesis_of_isAlpha (hc : c.isAlpha = true) : isParenthesis c = false :=
  not_isParenthesis (p := fun c => c.isAlpha = true) (by decide) (by decide) hc

theorem parentheses_of_symbolToken? (hsymbol : symbolToken? c = some token) :
    Text.parentheses [c] = token.parentheses := by
  by_cases hopen : c = '('
  · subst hopen
    cases hsymbol
    rfl
  by_cases hclose : c = ')'
  · subst hclose
    cases hsymbol
    rfl
  have hnone : Text.parentheses [c] = [] := by simp [Text.parentheses, isParenthesis, hopen, hclose]
  rw [hnone]
  simp only [symbolToken?, if_neg hopen, if_neg hclose] at hsymbol
  repeat'
    split at hsymbol
    · cases hsymbol
      rfl
  obtain ⟨f, -, rfl⟩ := Option.map_eq_some_iff.1 hsymbol
  rfl

theorem parentheses_of_wordToken {word : Text} (htoken : wordToken word = .ok token) :
    token.parentheses = [] := by
  rw [wordToken] at htoken
  repeat' split at htoken
  all_goals cases htoken
  all_goals rfl

theorem mem_take_of_mem_take {d : Char} (hd : d ∈ text.take (length - 1)) :
    d ∈ (c :: text).take length := by
  cases length with
  | zero => simp at hd
  | succ length =>
    rw [List.take_succ_cons]
    exact List.mem_cons_of_mem c hd

/-- A token and its text have the same parentheses; a text of no characters still has
the first one. -/
theorem parentheses_of_scanToken (hscan : scanToken offset c text = .ok (token, length)) :
    Text.parentheses (c :: text.take (length - 1)) = token.parentheses := by
  rw [scanToken] at hscan
  split at hscan
  · next hc =>
    rw [scanNumeral] at hscan
    split at hscan
    next mantissa digits hlength =>
    split at hscan
    · cases hscan
    · dsimp only at hscan
      split at hscan
      · next numeral hread =>
        obtain ⟨rfl, rfl⟩ := Prod.mk.inj (Except.ok.inj hscan)
        have hchars := isDecimalChar_of_readDecimal? (Option.isSome_of_eq_some hread)
        have hfirst : IsDecimalChar c := hc.imp_right fun hpoint => by rw [hpoint]; decide
        exact parentheses_eq_nil (List.forall_mem_cons.2
          ⟨not_isParenthesis_of_isDecimalChar hfirst, fun d hd =>
            not_isParenthesis_of_isDecimalChar (hchars d (mem_take_of_mem_take hd))⟩)
      · cases hscan
  · split at hscan
    · next hc =>
      dsimp only at hscan
      split at hscan
      · next found hword =>
        obtain ⟨rfl, rfl⟩ := Prod.mk.inj (Except.ok.inj hscan)
        rw [parentheses_of_wordToken hword, List.length_cons, Nat.add_sub_cancel,
          ← List.prefix_iff_eq_take.1 (List.takeWhile_prefix Char.isAlpha)]
        exact parentheses_eq_nil (List.forall_mem_cons.2 ⟨not_isParenthesis_of_isAlpha hc,
          fun d hd => not_isParenthesis_of_isAlpha (List.mem_takeWhile_imp hd)⟩)
      · cases hscan
    · split at hscan
      · next found hsymbol =>
        obtain ⟨rfl, rfl⟩ := Prod.mk.inj (Except.ok.inj hscan)
        exact parentheses_of_symbolToken? hsymbol
      · cases hscan

/-- Nothing is lost between the lexemes of a text but blanks. -/
theorem parentheses_of_lexemesFrom {lexemes : List Lexeme}
    (hlexemes : lexemesFrom offset text = .ok lexemes) :
    Text.parentheses text = (lexemes.map Lexeme.token).flatMap Token.parentheses := by
  induction hsize : text.length using Nat.strong_induction_on generalizing text offset lexemes with
  | h size ih =>
    cases text with
    | nil =>
      rw [lexemesFrom_nil] at hlexemes
      cases hlexemes
      rfl
    | cons c text =>
      rw [List.length_cons] at hsize
      rw [lexemesFrom.eq_def] at hlexemes
      dsimp only at hlexemes
      split at hlexemes
      · next hblank =>
        have hc : isParenthesis c = false :=
          not_isParenthesis (p := fun c => isBlank c = true) (by decide) (by decide) hblank
        rw [← ih text.length (by omega) hlexemes rfl, Text.parentheses, Text.parentheses,
          List.filter_cons_of_neg (by simp [hc])]
      · obtain ⟨⟨token, length⟩, hscan, hlexemes⟩ := bind_eq_ok_iff.1 hlexemes
        obtain ⟨others, hothers, hlexemes⟩ := bind_eq_ok_iff.1 hlexemes
        cases hlexemes
        have hrest := ih (text.drop (length - 1)).length
          (by rw [List.length_drop]; omega) hothers rfl
        have hsplit : c :: text =
            (c :: text.take (length - 1)) ++ text.drop (length - 1) := by simp
        rw [hsplit, parentheses_append, parentheses_of_scanToken hscan, hrest]
        rfl

/-! ## Groups that are pending -/

def openGroups (pending : List Pending) : Nat := pending.countP Pending.isGroup

theorem openGroups_group : openGroups (.group :: pending) = openGroups pending + 1 :=
  List.countP_cons_of_pos rfl

theorem openGroups_cons {first : Pending} (hfirst : first.isGroup = false) :
    openGroups (first :: pending) = openGroups pending :=
  List.countP_cons_of_neg (by rw [hfirst]; exact Bool.false_ne_true)

theorem openGroups_negation : openGroups (.negation :: pending) = openGroups pending :=
  openGroups_cons rfl

theorem openGroups_argument (f : NamedFunction) :
    openGroups (.argument f :: pending) = openGroups pending :=
  openGroups_cons rfl

theorem openGroups_le_nesting (pending : List Pending) : openGroups pending ≤ nesting pending := by
  refine List.countP_mono_left fun first _ hgroup => ?_
  cases first with
  | group => rfl
  | _ => cases hgroup

/-- A value is handed past no group. -/
theorem close_counts {precedence : Precedence} (hclose : close precedence x pending = (y, rest)) :
    openGroups rest = openGroups pending ∧ nesting rest ≤ nesting pending := by
  induction pending generalizing x with
  | nil =>
    cases hclose
    exact ⟨rfl, Nat.le_refl _⟩
  | cons first pending ih =>
    by_cases hclosed : first.isClosedBy precedence = true
    · rw [close, if_pos hclosed] at hclose
      obtain ⟨hgroups, hnesting⟩ := ih hclose
      have hgroup : ¬first.isGroup = true := by
        rw [← strength_eq_zero_iff]
        have hbinding := isClosedBy_iff.1 hclosed
        cases precedence <;> simp only [bindingOf] at hbinding <;> omega
      exact ⟨hgroups.trans (List.countP_cons_of_neg hgroup).symm,
        hnesting.trans (List.sublist_cons_self first pending).countP_le⟩
    · rw [close, if_neg hclosed] at hclose
      cases hclose
      exact ⟨rfl, Nat.le_refl _⟩

theorem readOperator_counts (x : Float) (pending : List Pending) (op : Operator) :
    openGroups (readOperator x pending op) = openGroups pending ∧
      nesting (readOperator x pending op) ≤ nesting pending := by
  cases hclose : close op.precedence x pending with
  | mk y rest =>
    obtain ⟨hgroups, hnesting⟩ := close_counts hclose
    rw [readOperator, hclose, nesting_binary]
    exact ⟨(openGroups_cons rfl).trans hgroups, hnesting⟩

/-- Whether a token that is read opens and closes as many groups as it has parentheses,
and leaves no more of them open than the limit. -/
def Balances (limit : Nat) (token : Token) (pending : List Pending) (next : Progress) : Prop :=
  nesting next.pending ≤ limit ∧
    openGroups next.pending + token.parentheses.count ')' =
      openGroups pending + token.parentheses.count '('

theorem balances_awaiting (hread : readToken? limit (.awaiting pending) token = some next)
    (hnesting : nesting pending ≤ limit) : Balances limit token pending next := by
  cases token with
  | number | constant =>
    cases hread
    exact ⟨hnesting, rfl⟩
  | operator op =>
    cases op with
    | add =>
      cases hread
      exact ⟨hnesting, rfl⟩
    | sub =>
      cases hread
      exact ⟨nesting_negation.trans_le hnesting, openGroups_negation⟩
    | _ => cases hread
  | leftParen =>
    rw [readToken?_leftParen] at hread
    split at hread
    · next hopen =>
      cases hread
      exact ⟨nesting_group.trans_le hopen, openGroups_group⟩
    · cases hread
  | function f =>
    rw [readToken?_function] at hread
    split at hread
    · next hopen =>
      cases hread
      exact ⟨(nesting_argument f).trans_le hopen, openGroups_argument f⟩
    · cases hread
  | percent | factorial | rightParen => cases hread

theorem balances_having (hread : readToken? limit (.having x pending) token = some next)
    (hnesting : nesting pending ≤ limit) : Balances limit token pending next := by
  by_cases hstarts : token.startsFactor = true
  · obtain ⟨hgroups, hfactor⟩ := readOperator_counts x pending .mul
    rw [readToken?_startsFactor hstarts] at hread
    obtain ⟨hlimit, hbalance⟩ := balances_awaiting hread (hfactor.trans hnesting)
    exact ⟨hlimit, hgroups ▸ hbalance⟩
  cases token with
  | number => cases hread
  | operator op =>
    obtain ⟨hgroups, hfactor⟩ := readOperator_counts x pending op
    cases hread
    exact ⟨hfactor.trans hnesting, hgroups⟩
  | percent =>
    cases hread
    exact ⟨hnesting, rfl⟩
  | factorial =>
    rw [readToken?_factorial, Option.map_eq_some_iff] at hread
    obtain ⟨y, -, rfl⟩ := hread
    exact ⟨hnesting, rfl⟩
  | rightParen =>
    rw [readToken?_rightParen] at hread
    split at hread
    · next y outer hclose =>
      obtain ⟨hgroups, hclosed⟩ := close_counts hclose
      rw [openGroups_group] at hgroups
      rw [nesting_group] at hclosed
      cases hread
      refine ⟨?_, hgroups⟩
      change nesting outer ≤ limit
      omega
    · cases hread
  | leftParen | function | constant => exact absurd rfl hstarts

theorem balances_of_readToken? (hread : readToken? limit progress token = some next)
    (hnesting : nesting progress.pending ≤ limit) :
    Balances limit token progress.pending next := by
  obtain ⟨_ | x, pending⟩ := progress
  · exact balances_awaiting hread hnesting
  · exact balances_having hread hnesting

theorem length_parentheses_le (token : Token) : token.parentheses.length ≤ 1 := by
  cases token <;> simp [Token.parentheses]

/-- No more groups than the limit are open behind any parenthesis of the tokens. -/
theorem valueFrom?_balance {value : Float} (hvalue : valueFrom? limit progress tokens = some value)
    (hnesting : nesting progress.pending ≤ limit) {before after : Text}
    (htokens : tokens.flatMap Token.parentheses = before ++ after) :
    openGroups progress.pending + before.count '(' ≤ before.count ')' + limit := by
  have hopen := openGroups_le_nesting progress.pending
  induction tokens generalizing progress before with
  | nil =>
    obtain ⟨rfl, -⟩ := List.append_eq_nil_iff.1 htokens.symm
    simp only [List.count_nil]
    omega
  | cons token tokens ih =>
    obtain ⟨next, hread, hvalue⟩ := Option.bind_eq_some_iff.1 hvalue
    obtain ⟨hlimit, hgroups⟩ := balances_of_readToken? hread hnesting
    rw [List.flatMap_cons] at htokens
    rcases List.append_eq_append_iff.1 htokens with ⟨middle, rfl, hrest⟩ | ⟨middle, hfirst, -⟩
    · have hbalance := ih hvalue hlimit hrest (openGroups_le_nesting _)
      rw [List.count_append, List.count_append]
      omega
    · have hlast := openGroups_le_nesting next.pending
      have hlength := length_parentheses_le token
      rw [hfirst, List.length_append] at hlength
      cases before with
      | nil =>
        simp only [List.count_nil]
        omega
      | cons c before =>
        rw [List.length_cons] at hlength
        obtain rfl : middle = [] := List.eq_nil_of_length_eq_zero (by omega)
        rw [hfirst, List.append_nil] at hgroups
        omega

/-- A scalar expression with a value is not nested deeper than the limit. -/
theorem not_nestsDeeper_of_evaluate (hvalue : evaluate limit text = .ok x) :
    ¬NestsDeeper limit text := by
  rw [← nestsDeeper_parentheses]
  rintro ⟨before, after, htext, hdeeper⟩
  simp only [evaluate, bind_eq_ok_iff] at hvalue
  obtain ⟨found, hlexemes, value, hvalue, -⟩ := hvalue
  rw [parentheses_of_lexemesFrom hlexemes] at htext
  have hbalance : openGroups Progress.start.pending + before.count '(' ≤
      before.count ')' + limit := by
    rcases valueOf_eq_ok_iff.1 hvalue with hvalue | hvalue
    · exact valueFrom?_balance hvalue (Nat.zero_le limit) htext
    · have htokens : (found.map Lexeme.token ++ [Token.rightParen]).flatMap Token.parentheses =
          before ++ (after ++ [')']) := by
        rw [List.flatMap_append, htext, List.append_assoc]
        rfl
      exact valueFrom?_balance hvalue (Nat.zero_le limit) htokens
  have hstart : openGroups Progress.start.pending = 0 := rfl
  omega

end Scalar

end MatrixCalculator
