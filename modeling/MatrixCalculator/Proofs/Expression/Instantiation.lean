import MatrixCalculator.Proofs.Expression.Balance

/-!
# Literals replaced by canonical ones

The first pass replaces the literals of a text and nothing else.  A literal begins at the
leftmost pair of brackets that open and ends at the first pair behind it that close, so
there is one way to see the literals of a text.  The brackets beside a canonical literal
never join it, and its fields are written numbers: another pass finds the same literals
and leaves all of them as they are.
-/

namespace MatrixCalculator.Expression

open Outcome Text

variable {separators : Separators} {evaluate : Text → Except Fault Text} {text canonical : Text}

/-- Whether a text becomes another one where its literals, from the left to the right, are
read and written in canonical form. -/
inductive Instantiates (separators : Separators) (evaluate : Text → Except Fault Text) :
    Text → Text → Prop
  | plain {text : Text} (hopening : ¬Literal.opening <:+: text) :
      Instantiates separators evaluate text text
  | literal {before body rest tail : Text} {m : Matrix Float}
      (hopening : ¬Literal.opening <:+: before ++ ['['])
      (hclosing : ¬Literal.closing <:+: body ++ [']'])
      (hread : Literal.read separators evaluate (Literal.opening ++ body ++ Literal.closing) =
        .ok m)
      (hrest : Instantiates separators evaluate rest tail) :
      Instantiates separators evaluate
        (before ++ (Literal.opening ++ body ++ Literal.closing) ++ rest)
        (before ++ Literal.write m ++ tail)

theorem cut?_opening_iff {before inside : Text} :
    cut? Literal.opening text = some (before, inside) ↔
      text = before ++ Literal.opening ++ inside ∧ ¬Literal.opening <:+: before ++ ['['] :=
  cut?_eq_some_iff (List.cons_ne_nil _ _)

theorem cut?_closing_iff {body rest : Text} : cut? Literal.closing text = some (body, rest) ↔
    text = body ++ Literal.closing ++ rest ∧ ¬Literal.closing <:+: body ++ [']'] :=
  cut?_eq_some_iff (List.cons_ne_nil _ _)

/-- The first pass succeeds with a text exactly if that is the text with its literals in
canonical form. -/
theorem canonicalizeLiterals_eq_ok_iff :
    canonicalizeLiterals separators evaluate text = .ok canonical ↔
      Instantiates separators evaluate text canonical := by
  constructor
  · intro hcanonical
    induction text using literalParts.induct generalizing canonical with
    | case1 text hopen =>
      rw [canonicalizeLiterals_of_no_opening hopen] at hcanonical
      cases hcanonical
      refine .plain fun hopening => ?_
      simpa [contains, hopen] using contains_iff.2 hopening
    | case2 text before inside hopen hclose =>
      rw [canonicalizeLiterals_of_no_closing hopen hclose] at hcanonical
      cases hcanonical
    | case3 text before inside hopen body rest hclose _ ih =>
      rw [canonicalizeLiterals_of_cut? hopen hclose] at hcanonical
      obtain ⟨m, hread, hcanonical⟩ := bind_eq_ok_iff.1 hcanonical
      obtain ⟨tail, htail, hcanonical⟩ := bind_eq_ok_iff.1 hcanonical
      cases hcanonical
      obtain ⟨rfl, hopening⟩ := cut?_opening_iff.1 hopen
      obtain ⟨rfl, hclosing⟩ := cut?_closing_iff.1 hclose
      have hparts := Instantiates.literal hopening hclosing hread (ih htail)
      simpa only [List.append_assoc] using hparts
  · intro hinstantiates
    induction hinstantiates with
    | plain hopening =>
      refine canonicalizeLiterals_of_no_opening (Option.not_isSome_iff_eq_none.1 fun hsome => ?_)
      exact hopening (contains_iff.1 hsome)
    | @literal before body rest tail m hopening hclosing hread _ ih =>
      have hopen : cut? Literal.opening (before ++ Literal.opening ++ (body ++ Literal.closing ++
          rest)) = some (before, body ++ Literal.closing ++ rest) :=
        cut?_opening_iff.2 ⟨rfl, hopening⟩
      have hclose : cut? Literal.closing (body ++ Literal.closing ++ rest) = some (body, rest) :=
        cut?_closing_iff.2 ⟨rfl, hclosing⟩
      have htext : before ++ (Literal.opening ++ body ++ Literal.closing) ++ rest =
          before ++ Literal.opening ++ (body ++ Literal.closing ++ rest) := by
        simp only [List.append_assoc]
      rw [htext, canonicalizeLiterals_of_cut? hopen hclose, hread, ok_bind, ih, ok_bind]
      rfl

/-- The first pass leaves everything outside of the literals as it is, and what comes out
of it, whatever the separators have been, does not change in another one with the same
levels. -/
theorem canonicalizeLiterals_stable {limit levels : Nat}
    (hcanonical : canonicalizeLiterals separators (resolve limit levels) text = .ok canonical) :
    canonicalizeLiterals Separators.canonical (resolve limit levels) canonical = .ok canonical ∧
      Instantiates separators (resolve limit levels) text canonical := by
  refine ⟨canonicalizeLiterals_canonical ?_ hcanonical,
    canonicalizeLiterals_eq_ok_iff.1 hcanonical⟩
  intro field value hvalue x
  cases levels with
  | zero => cases hvalue
  | succ levels => exact resolve_write limit levels x

/-- Fields without a number, and brackets beside a literal. -/
theorem canonicalizeLiterals_brackets :
    canonicalizeLiterals (.ofDecimalPoint ',') (resolve 64 64) "[[0÷0;1÷0]][2,5]".toList =
        .ok "[[NaN,Infinity]][2,5]".toList ∧
      canonicalizeLiterals Separators.canonical (resolve 64 64) "[[NaN,Infinity]][2,5]".toList =
        .ok "[[NaN,Infinity]][2,5]".toList ∧
      Instantiates (.ofDecimalPoint ',') (resolve 64 64) "[[0÷0;1÷0]][2,5]".toList
        "[[NaN,Infinity]][2,5]".toList := by
  have hcanonical : canonicalizeLiterals (.ofDecimalPoint ',') (resolve 64 64)
      "[[0÷0;1÷0]][2,5]".toList = .ok "[[NaN,Infinity]][2,5]".toList := by decide +kernel
  exact ⟨hcanonical, canonicalizeLiterals_stable hcanonical⟩

end MatrixCalculator.Expression
