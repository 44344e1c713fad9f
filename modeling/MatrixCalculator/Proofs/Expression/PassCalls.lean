import MatrixCalculator.Proofs.Chain.Joining
import MatrixCalculator.Proofs.Expression.StableBrackets
import MatrixCalculator.Proofs.Expression.Traced

/-!
# What the passes call

Marks and functions call for fields in which no literal begins or none ends, a chain for the
fields of its operands up to the first one without a value, and the groups only where a
parenthesis opens.  Each rule asks for the calls in its own place, with what the pass knows of
the text there.
-/

namespace MatrixCalculator

open Chain Expression Numeral Outcome Text

namespace Expression

/-! ## Operands of a text -/

section Operands

variable {text operand : Text} {left right : List Text} {first : Text} {links : Links Text}
  {c : Char}

/-- What stands in front of an operand is other operands and operators. -/
theorem exists_before_operand (hsplit : (ofLinks first links).operands = left ++ operand :: right) :
    ∃ before after, (ofLinks first links).join = before ++ (operand ++ after) ∧
      ∀ c ∈ before, (∃ other ∈ left, c ∈ other) ∨ c ∈ operatorAlphabet := by
  induction links generalizing first left with
  | nil =>
    cases left with
    | nil =>
      obtain rfl : first = operand := (List.cons.inj hsplit).1
      exact ⟨[], [], by simp [join_nil], nofun⟩
    | cons other left =>
      have htail := (List.cons.inj hsplit).2
      simp at htail
  | cons link links ih =>
    obtain ⟨op, next⟩ := link
    rw [join_cons]
    cases left with
    | nil =>
      obtain rfl : first = operand := (List.cons.inj hsplit).1
      exact ⟨[], op.symbol ++ (ofLinks next links).join, by simp, nofun⟩
    | cons other left =>
      obtain ⟨rfl, htail⟩ := List.cons.inj hsplit
      obtain ⟨before, after, hjoin, hbefore⟩ := ih htail
      refine ⟨first ++ op.symbol ++ before, after, by simp [hjoin], fun c hc => ?_⟩
      rw [List.append_assoc, List.mem_append, List.mem_append] at hc
      rcases hc with hc | hc | hc
      · exact .inl ⟨first, by simp, hc⟩
      · exact .inr (by_contra fun hop => not_mem_symbol op hop hc)
      · rcases hbefore c hc with ⟨part, hpart, hc⟩ | hc
        · exact .inl ⟨part, List.mem_cons_of_mem _ hpart, hc⟩
        · exact .inr hc

theorem exists_before_of_split (hsplit : (split text).operands = left ++ operand :: right) :
    ∃ before after, text = before ++ (operand ++ after) ∧
      ∀ c ∈ before, (∃ other ∈ left, c ∈ other) ∨ c ∈ operatorAlphabet := by
  obtain ⟨first, links, hlinks, hjoin, -⟩ := exists_splitAfter_eq none text
  rw [split, hlinks] at hsplit
  rw [← hjoin]
  exact exists_before_operand hsplit

theorem exists_operand_of_mem (hc : c ∈ text) (hop : c ∉ operatorAlphabet) :
    ∃ operand ∈ (split text).operands, c ∈ operand := by
  obtain ⟨first, links, hlinks, rfl, -⟩ := exists_splitAfter_eq none text
  rw [split, hlinks]
  clear hlinks
  induction links generalizing first with
  | nil => exact ⟨first, by simp [ofLinks], hc⟩
  | cons link links ih =>
    obtain ⟨op, next⟩ := link
    rw [join_cons, List.append_assoc, List.mem_append, List.mem_append] at hc
    rcases hc with hc | hc | hc
    · exact ⟨first, by simp [ofLinks], hc⟩
    · exact absurd hc (not_mem_symbol op hop)
    · obtain ⟨operand, hoperand, hc⟩ := ih next hc
      exact ⟨operand, List.mem_cons_of_mem _ hoperand, hc⟩

end Operands

/-! ## Calls of the passes -/

section Calls

variable {P : Call → Prop} {J : Text → Prop} {e' : Text → Traced Text}
  {e : Text → Except Fault Text} {solve : Text → Except Fault Float} {text : Text}

/-- Where the calls for the fields that a mark or a function reads are traced.  Such a field is a
part of the text, and no literal begins in it or none ends in it. -/
def TracesFields (P : Call → Prop) (J : Text → Prop) (e' : Text → Traced Text)
    (e : Text → Except Fault Text) : Prop :=
  ∀ text field, J text → Literal.opening <:+: text → field <:+: text →
    ¬Literal.opening <:+: field ∨ ¬Literal.closing <:+: field → Traces P (e' field) (e field)

theorem traces_applyFirst (hJ : Stable J) (hfields : TracesFields P J e' e) (name : MarkName)
    (htext : J text) (count : Nat) :
    Traces P (name.mark.applyFirstBy e' count text)
      (name.mark.applyFirstBy (M := Id) e count text) := by
  induction count generalizing text with
  | zero => exact traces_pure text
  | succ count ih =>
    rw [Mark.applyFirstBy, Mark.applyFirstBy]
    cases hcut : cut? name.mark.text text with
    | none => exact traces_pure text
    | some parts =>
      obtain ⟨head, tail⟩ := parts
      dsimp only
      cases hliteral : Mark.literalBefore? head with
      | none => exact traces_throw _
      | some parts =>
        obtain ⟨before, literal⟩ := parts
        dsimp only
        refine (traces_read fun interior hinterior field hreached => ?_).bind fun m hread => ?_
        · obtain ⟨inside, rfl, hhead, hopening⟩ := exists_inside_of_literalBefore? hliteral
          have hinside : inside = interior ++ Literal.closing := by simpa using hinterior
          have hinterior : interior <:+: text := by
            rw [eq_append_of_cut? hcut, hhead, hinside]
            exact ⟨before ++ Literal.opening, Literal.closing ++ name.mark.text ++ tail, by simp⟩
          have hbegins : Literal.opening <:+: text := by
            rw [eq_append_of_cut? hcut, hhead]
            exact ⟨before, inside ++ name.mark.text ++ tail, by simp⟩
          have hfield := isInfix_of_mem_fieldsOf hreached.mem
          refine hfields text field htext hbegins (hfield.trans hinterior) (.inl fun h => ?_)
          exact hopening (h.trans (hfield.trans ⟨[], Literal.closing, by rw [hinside]; rfl⟩))
        refine (traces_known _).bind fun value hvalue => ih ?_
        -- the next mark stands in a text of the same kind
        rw [read_id] at hread
        exact hJ.replaceMark name hcut hliteral hread hvalue htext

/-- The argument of a function ends with the first brackets that can end it. -/
theorem Application.StandsIn.not_isInfix_closing {a : Application} {interior : Text}
    (hstands : a.StandsIn text)
    (hargument : a.argument = Literal.opening ++ interior ++ Literal.closing) :
    ¬Literal.closing <:+: interior := by
  rcases hstands.argument with ⟨body, hbody, hclosing⟩ | ⟨s, hs⟩
  · have heq : interior = body := by
      rw [hbody] at hargument
      simpa using hargument.symm
    exact fun h => hclosing (h.trans ⟨[], [']'], by rw [heq]; rfl⟩)
  · have hbracket : '[' ∈ s.text := by simp [← hs, hargument, Literal.opening]
    exact absurd (isPlain_signed s '[' hbracket) (by decide)

theorem traces_replaceFirst (hJ : Stable J) (hfields : TracesFields P J e' e) (htext : J text)
    (count : Nat) :
    Traces P (Application.replaceFirstBy e' count text)
      (Application.replaceFirstBy (M := Id) e count text) := by
  induction count generalizing text with
  | zero => exact traces_pure text
  | succ count ih =>
    rw [Application.replaceFirstBy, Application.replaceFirstBy]
    cases hfirst : Application.first? text with
    | none => exact traces_pure text
    | some a =>
      have hstands := standsIn_of_first? hfirst
      have hreplace : Traces P (a.replaceBy e') (a.replaceBy (M := Id) e) := by
        refine Traces.bind ?_ fun x _ => (traces_known _).bind fun value _ => ?_
        · refine Traces.ite (fun _ => (traces_read fun interior hinterior field hreached =>
            ?_).map _) fun _ => ?_
          · obtain ⟨name, hplace, -⟩ := hstands.place
            have hclosing := hstands.not_isInfix_closing hinterior
            have hinside : interior <:+: text := by
              rw [hplace, hinterior]
              exact ⟨a.before ++ name ++ Literal.opening, Literal.closing ++ a.after, by simp⟩
            have hbegins : Literal.opening <:+: text := by
              rw [hplace, hinterior]
              exact ⟨a.before ++ name, interior ++ Literal.closing ++ a.after, by simp⟩
            have hfield := isInfix_of_mem_fieldsOf hreached.mem
            exact hfields text field htext hbegins (hfield.trans hinside)
              (.inr fun h => hclosing (h.trans hfield))
          · cases Numeral.read? a.argument with
            | none => exact traces_throw _
            | some x => exact traces_pure _
        · exact Traces.ite (fun _ => traces_throw_bind _) fun _ => traces_pure _
      refine hreplace.bind fun replaced hreplaced => ih ?_
      rw [Application.replaceBy_id] at hreplaced
      exact hJ.replaceApplication hstands htext hreplaced

/-- The calls of a chain are those for its operands, up to the first one without a value. -/
theorem traces_reduceText
    (hoperands : ∀ left operand right, (split text).operands = left ++ operand :: right →
      (∀ other ∈ left, ∃ value, (operandBy (M := Id) e solve other).run = .ok value) →
      startsWith Literal.opening operand = true → ∀ interior,
      operand = Literal.opening ++ interior ++ Literal.closing → ∀ field,
        IsReached e (Literal.fieldsOf Separators.canonical interior).flatten field →
          Traces P (e' field) (e field)) :
    Traces P (reduceTextBy e' solve text) (reduceTextBy (M := Id) e solve text) := by
  refine Traces.ite (fun _ => traces_pure text) fun _ => ?_
  refine (traces_mapM fun left operand right hsplit hleft => ?_).bind fun operands _ =>
    (traces_known _).bind fun value _ => traces_pure _
  refine Traces.ite (fun hstart => ?_) fun _ => (traces_known _).map _
  exact (traces_read (hoperands left operand right hsplit hleft hstart)).map _

theorem traces_flatPasses (hJ : Stable J) (hfields : TracesFields P J e' e)
    (hreduce : ∀ text, J text →
      Traces P (reduceTextBy e' solve text) (reduceTextBy (M := Id) e solve text))
    (htext : J text) :
    Traces P (flatPassesBy e' solve text) (flatPassesBy (M := Id) e solve text) := by
  refine (traces_applyFirst hJ hfields .transpose htext _).bind fun transposed htransposed => ?_
  have htransposed : J transposed := by
    rw [Mark.applyFirstBy_id] at htransposed
    exact hJ.applyFirst .transpose htext htransposed
  refine (traces_applyFirst hJ hfields .inverse htransposed _).bind fun inverted hinverted => ?_
  have hinverted : J inverted := by
    rw [Mark.applyFirstBy_id] at hinverted
    exact hJ.applyFirst .inverse htransposed hinverted
  refine (traces_replaceFirst hJ hfields hinverted _).bind fun applied happlied => hreduce _ ?_
  rw [Application.replaceFirstBy_id] at happlied
  exact hJ.same (sameBrackets_spellConstants none applied) (hJ.replaceFirst hinverted happlied)

end Calls

/-! ## Groups -/

section Groups

variable {evaluate : Text → Except Fault Text} {text closed : Text}

theorem eq_of_balance (hfree : '(' ∉ text) (hclosed : balance text = .ok closed) :
    closed = text := by
  obtain ⟨rfl | rfl, hopen, hcount⟩ := closed_of_balance hclosed
  · rfl
  · rw [hopen, List.count_eq_zero_of_not_mem hfree] at hcount
    simp at hcount

/-- Text that opens no group stays as it is, or closes one too many. -/
theorem closeAndResolve_of_free {M : Type → Type} [Monad M] [LawfulMonad M]
    (evaluate : Text → ExceptT Fault M Text) (hfree : '(' ∉ text) :
    closeAndResolve evaluate text = known (balance text) := by
  rw [closeAndResolve]
  cases hclosed : balance text with
  | error cause => rw [known_error_bind]
  | ok closed =>
    rw [known_ok_bind, eq_of_balance hfree hclosed, List.count_eq_zero_of_not_mem hfree,
      replaceGroupsBy, if_neg hfree]
    rfl

theorem eq_of_closeAndResolve (hfree : '(' ∉ text)
    (hclosed : (closeAndResolve (M := Id) evaluate text).run = .ok closed) : closed = text := by
  rw [closeAndResolve_of_free (M := Id) evaluate hfree] at hclosed
  exact eq_of_balance hfree hclosed

theorem not_mem_of_replaceGroups {rounds : Nat}
    (hclosed : replaceGroups evaluate rounds text = .ok closed) : '(' ∉ closed := by
  induction rounds generalizing text with
  | zero =>
    rw [replaceGroups] at hclosed
    split at hclosed
    · cases hclosed
    · next hfree =>
      cases hclosed
      exact hfree
  | succ rounds ih =>
    rw [replaceGroups] at hclosed
    split at hclosed
    · obtain ⟨⟨next, replaced⟩, -, hnext⟩ := bind_eq_ok_iff.1 hclosed
      dsimp only at hnext
      split at hnext
      · exact ih hnext
      · cases hnext
    · next hfree =>
      cases hclosed
      exact hfree

theorem not_mem_of_closeAndResolve
    (hclosed : (closeAndResolve (M := Id) evaluate text).run = .ok closed) : '(' ∉ closed := by
  rw [closeAndResolve_eq] at hclosed
  obtain ⟨balanced, -, hclosed⟩ := bind_eq_ok_iff.1 hclosed
  exact not_mem_of_replaceGroups hclosed

end Groups

end Expression

end MatrixCalculator
