import MatrixCalculator.Proofs.Expression.PassCalls
import MatrixCalculator.Proofs.Scalar.Characters

/-!
# How deep evaluation goes

What a text can still call is seen from its brackets.  A field of a literal holds no brackets
that end one; whatever is called from there on opens no group; of the operands of such a text
one field at most still has brackets around a literal, behind one that closes; and nothing is
called from there but fields without any literal.  The solver for scalars refuses brackets, so
the calls end with these, however many of them the text has.
-/

namespace MatrixCalculator

open Chain Expression Numeral Outcome Text

namespace Expression

/-! ## Classes of texts -/

/-- How many levels of calls there can be below a text: none where no group is opened and no
literal begins or none ends, one where a bracket closes in front of all literals instead, two
where no group is opened, three where no literal ends. -/
def HasRank : Nat → Text → Prop
  | 0, text => '(' ∉ text ∧ (¬Literal.opening <:+: text ∨ ¬Literal.closing <:+: text)
  | 1, text => '(' ∉ text ∧ IsBarred text
  | 2, text => '(' ∉ text
  | 3, text => ¬Literal.closing <:+: text
  | _, _ => True

section Ranks

variable {P : Call → Prop} {J : Text → Prop} {e' : Text → Traced Text}
  {e : Text → Except Fault Text} {solve : Text → Except Fault Float} {text : Text}

/-- Where every call for a text of a lower rank is traced, so is every call for a text. -/
def TracesBelow (P : Call → Prop) (rank : Nat) (e' : Text → Traced Text)
    (e : Text → Except Fault Text) : Prop :=
  ∀ lower < rank, ∀ text, HasRank lower text → Traces P (e' text) (e text)

theorem traces_passes {K : Text → Prop} (hK : Stable K) (hJ : Stable J)
    (hliterals : Traces P (canonicalizeLiteralsBy Separators.canonical e' text)
      (canonicalizeLiteralsBy (M := Id) Separators.canonical e text))
    (hcanonical : ∀ canonical,
      canonicalizeLiterals Separators.canonical e text = .ok canonical → K canonical)
    (hgroups : ∀ spelled, K spelled →
      Traces P (closeAndResolve e' spelled) (closeAndResolve (M := Id) e spelled))
    (hclosed : ∀ spelled, K spelled → ∀ closed,
      (closeAndResolve (M := Id) e spelled).run = .ok closed → J closed)
    (hfields : TracesFields P J e' e)
    (hreduce : ∀ text, J text →
      Traces P (reduceTextBy e' solve text) (reduceTextBy (M := Id) e solve text)) :
    Traces P (passesBy e' solve text) (passesBy (M := Id) e solve text) := by
  refine hliterals.bind fun canonical h => (traces_known _).bind fun spelled hspelled => ?_
  rw [canonicalizeLiteralsBy_id] at h
  have hpercents := hK.same (sameBrackets_spellPercents none canonical) (hcanonical canonical h)
  have hspelled := hK.same (sameBrackets_spellFactorials hspelled) hpercents
  exact (hgroups spelled hspelled).bind fun closed h =>
    traces_flatPasses hJ hfields hreduce (hclosed spelled hspelled closed h)

/-- The chain that is left for a value. -/
theorem exists_reduced {K : Text → Prop} (hK : Stable K) (hJ : Stable J)
    (hcanonical : ∀ canonical,
      canonicalizeLiterals Separators.canonical e text = .ok canonical → K canonical)
    (hclosed : ∀ spelled, K spelled → ∀ closed,
      (closeAndResolve (M := Id) e spelled).run = .ok closed → J closed)
    {value : Text} (hvalue : (passesBy (M := Id) e solve text).run = .ok value) :
    ∃ last, J last ∧ (reduceTextBy (M := Id) e solve last).run = .ok value := by
  simp only [passesBy, flatPassesBy, canonicalizeLiteralsBy_id, known_id, Mark.applyFirstBy_id,
    Application.replaceFirstBy_id, bind_id] at hvalue
  obtain ⟨canonical, h, hvalue⟩ := bind_eq_ok_iff.1 hvalue
  have hpercents := hK.same (sameBrackets_spellPercents none canonical) (hcanonical canonical h)
  obtain ⟨spelled, hspelled, hvalue⟩ := bind_eq_ok_iff.1 hvalue
  have hspelled := hK.same (sameBrackets_spellFactorials hspelled) hpercents
  obtain ⟨closed, h, hvalue⟩ := bind_eq_ok_iff.1 hvalue
  have hclosed := hclosed spelled hspelled closed h
  obtain ⟨transposed, htransposed, hvalue⟩ := bind_eq_ok_iff.1 hvalue
  have htransposed := hJ.applyFirst .transpose hclosed htransposed
  obtain ⟨inverted, hinverted, hvalue⟩ := bind_eq_ok_iff.1 hvalue
  have hinverted := hJ.applyFirst .inverse htransposed hinverted
  obtain ⟨applied, happlied, hvalue⟩ := bind_eq_ok_iff.1 hvalue
  have happlied := hJ.replaceFirst hinverted happlied
  exact ⟨_, hJ.same (sameBrackets_spellConstants none applied) happlied, hvalue⟩

/-- Nothing is called for a text without a literal that begins and ends. -/
theorem traces_canonicalizeLiterals_of_none
    (htext : ¬Literal.opening <:+: text ∨ ¬Literal.closing <:+: text) :
    Traces P (canonicalizeLiteralsBy Separators.canonical e' text)
      (canonicalizeLiteralsBy (M := Id) Separators.canonical e text) := by
  cases hopen : cut? Literal.opening text with
  | none =>
    rw [canonicalizeLiteralsBy_of_no_opening hopen, canonicalizeLiteralsBy_of_no_opening hopen]
    exact traces_pure text
  | some parts =>
    obtain ⟨before, inside⟩ := parts
    have heq := eq_append_of_cut? hopen
    have hclosing : ¬Literal.closing <:+: inside := by
      rcases htext with h | h
      · exact absurd ⟨before, inside, heq.symm⟩ h
      · exact fun hinside => h (hinside.trans ⟨before ++ Literal.opening, [], by simp [heq]⟩)
    have hclose : cut? Literal.closing inside = none :=
      Option.not_isSome_iff_eq_none.1 fun hsome => hclosing (contains_iff.1 hsome)
    rw [canonicalizeLiteralsBy_of_no_closing hopen hclose,
      canonicalizeLiteralsBy_of_no_closing hopen hclose]
    exact traces_throw _

theorem canonicalizeLiterals_of_none {canonical : Text}
    (htext : ¬Literal.opening <:+: text ∨ ¬Literal.closing <:+: text)
    (hcanonical : canonicalizeLiterals Separators.canonical e text = .ok canonical) :
    canonical = text ∧ ¬Literal.opening <:+: text := by
  cases canonicalizeLiterals_eq_ok_iff.1 hcanonical with
  | plain hopening => exact ⟨rfl, hopening⟩
  | @literal before body rest tail m _ _ _ _ =>
    rcases htext with h | h
    · exact absurd ⟨before, body ++ Literal.closing ++ rest, by simp⟩ h
    · exact absurd ⟨before ++ Literal.opening ++ body, rest, by simp⟩ h

theorem traces_closeAndResolve_of_free (hfree : '(' ∉ text) :
    Traces P (closeAndResolve e' text) (closeAndResolve (M := Id) e text) := by
  rw [closeAndResolve_of_free e' hfree, closeAndResolve_of_free (M := Id) e hfree]
  exact traces_known _

/-- Where no group is opened, the text between the passes opens none either. -/
theorem traces_passes_of_free {K : Text → Prop} (hK : Stable K) (hfree : '(' ∉ text)
    (hliterals : Traces P (canonicalizeLiteralsBy Separators.canonical e' text)
      (canonicalizeLiteralsBy (M := Id) Separators.canonical e text))
    (hcanonical : ∀ canonical,
      canonicalizeLiterals Separators.canonical e text = .ok canonical → K canonical)
    (hfields : TracesFields P (fun text => '(' ∉ text ∧ K text) e' e)
    (hreduce : ∀ text, '(' ∉ text ∧ K text →
      Traces P (reduceTextBy e' solve text) (reduceTextBy (M := Id) e solve text)) :
    Traces P (passesBy e' solve text) (passesBy (M := Id) e solve text) := by
  have hJ := stable_free.and hK
  refine traces_passes hJ hJ hliterals (fun canonical h => ?_)
    (fun spelled h => traces_closeAndResolve_of_free h.1)
    (fun spelled h closed hclosed => eq_of_closeAndResolve h.1 hclosed ▸ h) hfields hreduce
  exact ⟨not_mem_canonicalizeLiterals (by decide) hfree h, hcanonical canonical h⟩

theorem tracesFields_of_free (hfree : ∀ text, J text → '(' ∉ text)
    (hbelow : TracesBelow P 1 e' e) : TracesFields P J e' e :=
  fun text field htext _ hfield hbrackets =>
    hbelow 0 Nat.one_pos field ⟨fun h => hfree text htext (hfield.subset h), hbrackets⟩

theorem TracesBelow.mono {rank rank' : Nat} (hbelow : TracesBelow P rank e' e)
    (hrank : rank' ≤ rank) : TracesBelow P rank' e' e :=
  fun lower hlower => hbelow lower (hlower.trans_le hrank)

theorem traces_rank_zero (htext : HasRank 0 text) :
    Traces P (passesBy e' solve text) (passesBy (M := Id) e solve text) := by
  obtain ⟨hfree, hbrackets⟩ := htext
  refine traces_passes_of_free stable_unopened hfree
    (traces_canonicalizeLiterals_of_none hbrackets)
    (fun canonical h => ?_) (fun text field h hopening => absurd hopening h.2)
    fun text h => traces_reduceText fun left operand right hsplit _ hstart => ?_
  · obtain ⟨rfl, hopening⟩ := canonicalizeLiterals_of_none hbrackets h
    exact hopening
  · obtain ⟨before, after, rfl, -⟩ := exists_before_of_split hsplit
    exact absurd ((startsWith_iff.1 hstart).isInfix.trans ⟨before, after, by simp⟩) h.2

theorem traces_canonicalizeLiterals_of_free (hfree : '(' ∉ text) (hbelow : TracesBelow P 1 e' e) :
    Traces P (canonicalizeLiteralsBy Separators.canonical e' text)
      (canonicalizeLiteralsBy (M := Id) Separators.canonical e text) :=
  traces_canonicalizeLiterals fun field hfield hclosing =>
    hbelow 0 Nat.one_pos field ⟨fun h => hfree (hfield.subset h), .inr hclosing⟩

/-! ## Texts in which literals begin behind a bracket that closes -/

/-- A solver that refuses all texts with a bracket that closes. -/
def RefusesBrackets (solve : Text → Except Fault Float) : Prop :=
  ∀ text, ']' ∈ text → ∃ cause, solve text = .error cause

theorem isBarred_of_instantiates {separators : Separators} {canonical : Text}
    (hinstantiates : Instantiates separators e text canonical) (htext : IsBarred text) :
    IsBarred canonical := by
  cases hinstantiates with
  | plain _ => exact htext
  | @literal before body rest tail m _ _ _ _ =>
    have htext : IsBarred (before ++ (Literal.opening ++ (body ++ Literal.closing ++ rest))) := by
      simpa using htext
    rw [List.append_assoc]
    exact htext.of_opening.append _

theorem not_startsWith_of_isBarred (htext : IsBarred text) {left right : List Text} {operand : Text}
    (hsplit : (split text).operands = left ++ operand :: right)
    (hleft : ∀ other ∈ left, ']' ∉ other) : ¬startsWith Literal.opening operand = true := by
  intro hstart
  obtain ⟨before, after, rfl, hbefore⟩ := exists_before_of_split hsplit
  obtain ⟨rest, rfl⟩ := startsWith_iff.1 hstart
  rw [List.append_assoc] at htext
  obtain ⟨front, tail, rfl, -⟩ := htext.of_opening
  -- the bracket in front of the literal is one of an operand in front of it
  rcases hbefore ']' (by simp) with ⟨other, hother, hmem⟩ | hmem
  · exact hleft other hother hmem
  · exact absurd hmem (by decide)

/-- The first operand with a bracket that closes has no value. -/
theorem not_mem_of_values (hsolve : RefusesBrackets solve) (htext : IsBarred text)
    {left right : List Text} (hsplit : (split text).operands = left ++ right)
    (hleft : ∀ operand ∈ left, ∃ value, (operandBy (M := Id) e solve operand).run = .ok value) :
    ∀ operand ∈ left, ']' ∉ operand := by
  induction left using List.reverseRecOn generalizing right with
  | nil => nofun
  | append_singleton left operand ih =>
    rw [List.forall_mem_append] at hleft ⊢
    rw [List.append_assoc] at hsplit
    have hfront := ih hsplit hleft.1
    refine ⟨hfront, List.forall_mem_singleton.2 fun hmem => ?_⟩
    obtain ⟨value, hvalue⟩ := List.forall_mem_singleton.1 hleft.2
    -- the operands in front have no bracket, so this one is no literal and the solver refuses it
    obtain ⟨cause, hcause⟩ := hsolve operand hmem
    rw [operandBy, if_neg (not_startsWith_of_isBarred htext hsplit hfront), hcause] at hvalue
    cases hvalue

theorem traces_reduceText_of_isBarred (hsolve : RefusesBrackets solve) (htext : IsBarred text) :
    Traces P (reduceTextBy e' solve text) (reduceTextBy (M := Id) e solve text) :=
  traces_reduceText fun _ _ _ hsplit hleft hstart =>
    have hfront := not_mem_of_values hsolve htext hsplit hleft
    absurd hstart (not_startsWith_of_isBarred htext hsplit hfront)

theorem exists_of_mapM {α β : Type} {f : α → ExceptT Fault Id β} {parts : List α}
    {values : List β} (hvalues : (parts.mapM f).run = .ok values) :
    ∀ part ∈ parts, ∃ value, (f part).run = .ok value := by
  induction parts generalizing values with
  | nil => nofun
  | cons part parts ih =>
    rw [List.mapM_cons, bind_id] at hvalues
    obtain ⟨value, hvalue, hvalues⟩ := bind_eq_ok_iff.1 hvalues
    rw [bind_id] at hvalues
    obtain ⟨others, hothers, -⟩ := bind_eq_ok_iff.1 hvalues
    exact List.forall_mem_cons.2 ⟨⟨value, hvalue⟩, ih hothers⟩

/-- A chain with brackets that close has no value. -/
theorem mem_of_reduceText (hsolve : RefusesBrackets solve) (htext : IsBarred text) {value : Text}
    (hvalue : (reduceTextBy (M := Id) e solve text).run = .ok value) : ']' ∈ value := by
  have hmem : ']' ∈ text := by
    obtain ⟨front, rest, rfl, -⟩ := htext
    simp
  rw [reduceTextBy] at hvalue
  split at hvalue
  · cases hvalue
    exact hmem
  · rw [bind_id] at hvalue
    obtain ⟨operands, hoperands, -⟩ := bind_eq_ok_iff.1 hvalue
    obtain ⟨operand, hoperand, hbracket⟩ := exists_operand_of_mem hmem (by decide)
    have hvalues := exists_of_mapM hoperands
    exact absurd hbracket
      (not_mem_of_values hsolve htext (List.append_nil _).symm hvalues operand hoperand)

/-- So the value, if there is one, has a bracket that closes. -/
theorem mem_of_passes (hsolve : RefusesBrackets solve) (htext : HasRank 1 text) {value : Text}
    (hvalue : (passesBy (M := Id) e solve text).run = .ok value) : ']' ∈ value := by
  obtain ⟨hfree, hbarred⟩ := htext
  have hJ := stable_free.and stable_isBarred
  obtain ⟨last, hlast, hvalue⟩ := exists_reduced hJ hJ
    (fun canonical h => ⟨not_mem_canonicalizeLiterals (by decide) hfree h,
      isBarred_of_instantiates (canonicalizeLiterals_eq_ok_iff.1 h) hbarred⟩)
    (fun spelled h closed hclosed => eq_of_closeAndResolve h.1 hclosed ▸ h) hvalue
  exact mem_of_reduceText hsolve hlast.2 hvalue

theorem traces_rank_one (hsolve : RefusesBrackets solve) (hbelow : TracesBelow P 1 e' e)
    (htext : HasRank 1 text) :
    Traces P (passesBy e' solve text) (passesBy (M := Id) e solve text) := by
  obtain ⟨hfree, hbarred⟩ := htext
  refine traces_passes_of_free stable_isBarred hfree
    (traces_canonicalizeLiterals_of_free hfree hbelow) (fun canonical h => ?_)
    (tracesFields_of_free (fun _ => And.left) hbelow)
    fun text h => traces_reduceText_of_isBarred hsolve h.2
  exact isBarred_of_instantiates (canonicalizeLiterals_eq_ok_iff.1 h) hbarred

/-! ## Texts that open no group -/

theorem mem_or_of_append_eq {α : Type} {a b : α} {left right left' right' : List α}
    (heq : left ++ a :: right = left' ++ b :: right') : b ∈ left ∨ b = a ∨ a ∈ left' := by
  rcases List.append_eq_append_iff.1 heq with ⟨gap, rfl, hgap⟩ | ⟨gap, rfl, hgap⟩
  · cases gap with
    | nil => exact .inr (.inl (List.cons.inj hgap).1.symm)
    | cons c gap => exact .inr (.inr (by simp [(List.cons.inj hgap).1]))
  · cases gap with
    | nil => exact .inr (.inl (List.cons.inj hgap).1)
    | cons c gap => exact .inl (by simp [(List.cons.inj hgap).1])

/-- No number is written with a bracket. -/
theorem bracket_not_mem_of_read? {x : Float} (hread : read? text = some x) : ']' ∉ text := by
  have hunsigned : ∀ text : Text, (readUnsigned? text).isSome → ']' ∉ text := by
    intro text hread hmem
    have hlower : ']' ∈ text.map Char.toLower := List.mem_map.2 ⟨']', hmem, by decide⟩
    rw [readUnsigned?] at hread
    split at hread
    · next hword =>
      rcases hword with h | h <;> rw [h] at hlower <;> revert hlower <;> decide
    split at hread
    · next hword =>
      rw [hword] at hlower
      revert hlower
      decide
    · rw [Option.isSome_map] at hread
      have hchar : ¬IsDecimalChar ']' := by
        rw [IsDecimalChar]
        decide
      exact hchar (isDecimalChar_of_readDecimal? hread _ hmem)
  rw [read?.eq_def] at hread
  split at hread
  · next digits =>
    obtain ⟨y, hy, -⟩ := Option.map_eq_some_iff.1 hread
    exact List.not_mem_cons_of_ne_of_not_mem (by decide) (hunsigned digits (by rw [hy]; rfl))
  · next digits =>
    exact List.not_mem_cons_of_ne_of_not_mem (by decide) (hunsigned digits (by rw [hread]; rfl))
  · exact hunsigned text (by rw [hread]; rfl)

/-- The fields of an operand, up to the first one that is not read as a number. -/
theorem traces_operand (hbelow : TracesBelow P 2 e' e)
    (hkeeps : ∀ text value, HasRank 1 text → e text = .ok value → ']' ∈ value)
    (htext : '(' ∉ text ∧ IsTame text) {before interior after field : Text}
    (hplace : text = before ++ (Literal.opening ++ interior ++ Literal.closing ++ after))
    (hreached : IsReached e (Literal.fieldsOf Separators.canonical interior).flatten field) :
    Traces P (e' field) (e field) := by
  obtain ⟨hfree, htame⟩ := htext
  have hfields : ∀ field ∈ (Literal.fieldsOf Separators.canonical interior).flatten,
      '(' ∉ field := by
    intro field hfield hmem
    have hmem := (isInfix_of_mem_fieldsOf hfield).subset hmem
    exact hfree (by simp [hplace, hmem])
  have hrun : ((Surroundings.outside false).run before).run
      (Literal.opening ++ interior ++ Literal.closing) ≠ .broken := by
    rw [IsTame, hplace, ← List.append_assoc] at htame
    rw [← Surroundings.run_append]
    exact Surroundings.run_ne_broken htame
  obtain ⟨opened, hopened⟩ := Surroundings.exists_outside (List.forall_mem_nil _)
    (Surroundings.run_ne_broken (Surroundings.run_ne_broken hrun))
  rw [hopened] at hrun
  -- either the operand is one literal, or a literal in it ends before the operand does
  rcases exists_bracket_of_run hrun with hclosing | ⟨body, rest, rfl, hrest, hopening, hclosing⟩
  · have hwithin := isInfix_of_mem_fieldsOf hreached.mem
    exact hbelow 0 (by decide) field
      ⟨hfields field hreached.mem, .inr fun h => hclosing (h.trans hwithin)⟩
  obtain ⟨left, part, tail, right, hsplit, hleft, hpart⟩ := exists_fieldsOf_bracket body hrest
  have hbarred : IsBarred (part ++ ']' :: tail) :=
    ⟨part, tail, rfl, fun h => hopening (h.trans hpart)⟩
  have hfree := hfields field hreached.mem
  rw [hsplit] at hfields hreached
  obtain ⟨left', right', heq, hread⟩ := hreached
  rcases mem_or_of_append_eq heq with hfield | rfl | hfield
  · exact hbelow 0 (by decide) field ⟨hfree, .inr fun h => hclosing (h.trans (hleft field hfield))⟩
  · exact hbelow 1 (by decide) _ ⟨hfree, hbarred⟩
  · -- behind the field with the bracket nothing is read, because its value is no number
    obtain ⟨value, x, hvalue, hx⟩ := hread _ hfield
    have hbracket := hkeeps _ value ⟨hfields _ (by simp), hbarred⟩ hvalue
    exact absurd hbracket (bracket_not_mem_of_read? hx)

theorem traces_rank_two (hbelow : TracesBelow P 2 e' e)
    (hkeeps : ∀ text value, HasRank 1 text → e text = .ok value → ']' ∈ value)
    (htext : HasRank 2 text) :
    Traces P (passesBy e' solve text) (passesBy (M := Id) e solve text) := by
  have hlower : TracesBelow P 1 e' e := hbelow.mono (by decide)
  refine traces_passes_of_free stable_isTame htext
    (traces_canonicalizeLiterals_of_free htext hlower) (fun canonical h => ?_)
    (tracesFields_of_free (fun _ => And.left) hlower)
    fun text h => traces_reduceText fun left operand right hsplit _ _ interior hoperand field
      hreached => ?_
  · exact isTame_of_instantiates (canonicalizeLiterals_eq_ok_iff.1 h)
  · obtain ⟨before, after, hplace, -⟩ := exists_before_of_split hsplit
    rw [hoperand] at hplace
    exact traces_operand hbelow hkeeps h hplace hreached

/-! ## All texts -/

theorem stable_true : Stable fun _ => True where
  same _ _ := trivial
  replace _ _ _ _ _ := trivial

/-- Behind the first pass, whatever the text is, no group is opened where something is called. -/
theorem traces_passes_of_literals (hbelow : TracesBelow P 3 e' e)
    (hliterals : Traces P (canonicalizeLiteralsBy Separators.canonical e' text)
      (canonicalizeLiteralsBy (M := Id) Separators.canonical e text)) :
    Traces P (passesBy e' solve text) (passesBy (M := Id) e solve text) := by
  refine traces_passes stable_true stable_free hliterals (fun _ _ => trivial)
    (fun spelled _ => traces_closeAndResolve (hbelow 2 (by decide)) spelled)
    (fun spelled _ closed => not_mem_of_closeAndResolve)
    (tracesFields_of_free (fun _ => id) (hbelow.mono (by decide)))
    fun text hfree => traces_reduceText fun left operand right hsplit _ _ interior hoperand field
      hreached => hbelow 2 (by decide) field fun hmem => hfree ?_
  obtain ⟨before, after, hplace, -⟩ := exists_before_of_split hsplit
  have hmem := (isInfix_of_mem_fieldsOf hreached.mem).subset hmem
  simp [hplace, hoperand, hmem]

theorem traces_rank_three (hbelow : TracesBelow P 3 e' e) (htext : HasRank 3 text) :
    Traces P (passesBy e' solve text) (passesBy (M := Id) e solve text) :=
  traces_passes_of_literals hbelow (traces_canonicalizeLiterals_of_none (.inr htext))

theorem traces_rank_four (hbelow : TracesBelow P 4 e' e) :
    Traces P (passesBy e' solve text) (passesBy (M := Id) e solve text) :=
  traces_passes_of_literals (hbelow.mono (by decide)) (traces_canonicalizeLiterals
    fun field _ hclosing => hbelow 3 (by decide) field hclosing)

end Ranks

/-! ## Depths of calls -/

section Depths

variable {solve : Text → Except Fault Float} {limit levels rank : Nat} {text value : Text}
  {separators : Separators}

theorem mem_of_resolveBy (hsolve : RefusesBrackets solve) (htext : HasRank 1 text)
    (hvalue : resolveBy silent solve limit levels text = .ok value) : ']' ∈ value := by
  cases levels with
  | zero => cases hvalue
  | succ levels =>
    rw [resolveBy, bind_id] at hvalue
    obtain ⟨-, -, hvalue⟩ := bind_eq_ok_iff.1 hvalue
    exact mem_of_passes hsolve htext hvalue

/-- One level deeper there is a lower rank. -/
theorem traces_passes_of_rank {P : Call → Prop} {e' : Text → Traced Text}
    {e : Text → Except Fault Text} (hsolve : RefusesBrackets solve)
    (hkeeps : ∀ text value, HasRank 1 text → e text = .ok value → ']' ∈ value)
    (htext : HasRank rank text) (hbelow : TracesBelow P rank e' e) :
    Traces P (passesBy e' solve text) (passesBy (M := Id) e solve text) := by
  match rank with
  | 0 => exact traces_rank_zero htext
  | 1 => exact traces_rank_one hsolve hbelow htext
  | 2 => exact traces_rank_two hbelow hkeeps htext
  | 3 => exact traces_rank_three hbelow htext
  | rank + 4 => exact traces_rank_four (hbelow.mono (by omega))

/-- The calls for a text are at most as many levels deeper as its rank says. -/
theorem traces_resolveBy (hsolve : RefusesBrackets solve) (hlevels : levels ≤ limit + 1)
    (htext : HasRank rank text) :
    Traces (fun call => call.depth + levels ≤ limit + 1 + rank)
      (resolveBy trace solve limit levels text) (resolveBy silent solve limit levels text) := by
  induction levels generalizing rank text with
  | zero =>
    have hdepth : limit + 1 + 0 ≤ limit + 1 + rank := by omega
    exact (traces_trace ⟨limit + 1, text⟩ hdepth).bind fun _ _ => traces_throw _
  | succ levels ih =>
    have hdepth : limit - levels + (levels + 1) ≤ limit + 1 + rank := by omega
    refine (traces_trace ⟨limit - levels, text⟩ hdepth).bind fun _ _ => ?_
    refine traces_passes_of_rank hsolve (fun _ _ => mem_of_resolveBy hsolve) htext ?_
    intro lower hlower text htext
    exact (ih (by omega) htext).mono fun call hcall => by omega

/-- No call is deeper than one level below the limit. -/
theorem traces_resolveBy_limit (solve : Text → Except Fault Float) (limit levels : Nat)
    (text : Text) :
    Traces (fun call => call.depth ≤ limit + 1) (resolveBy trace solve limit levels text)
      (resolveBy silent solve limit levels text) := by
  induction levels generalizing text with
  | zero =>
    have hdepth : limit + 1 ≤ limit + 1 := le_rfl
    exact (traces_trace ⟨limit + 1, text⟩ hdepth).bind fun _ _ => traces_throw _
  | succ levels ih =>
    have hdepth : limit - levels ≤ limit + 1 := by omega
    refine (traces_trace ⟨limit - levels, text⟩ hdepth).bind fun _ _ => ?_
    exact traces_rank_four fun _ _ text _ => ih text

theorem not_mem_of_resolveBy (hvalue : resolveBy silent solve limit levels text = .ok value) :
    '(' ∉ value := by
  cases levels with
  | zero => cases hvalue
  | succ levels =>
    rw [resolveBy, bind_id] at hvalue
    obtain ⟨-, -, hvalue⟩ := bind_eq_ok_iff.1 hvalue
    obtain ⟨last, hlast, hvalue⟩ := exists_reduced stable_true stable_free (fun _ _ => trivial)
      (fun _ _ _ => not_mem_of_closeAndResolve) hvalue
    rw [reduceTextBy] at hvalue
    split at hvalue
    · cases hvalue
      exact hlast
    · rw [bind_id] at hvalue
      obtain ⟨operands, -, hvalue⟩ := bind_eq_ok_iff.1 hvalue
      rw [bind_id] at hvalue
      obtain ⟨x, -, hvalue⟩ := bind_eq_ok_iff.1 hvalue
      cases hvalue
      exact (paren_not_mem_write x).1

theorem traces_evaluateBy {P : Call → Prop}
    (hfields : ∀ rank text, rank ≤ 3 → HasRank rank text →
      Traces P (resolveBy trace solve limit limit text) (resolveBy silent solve limit limit text))
    (hwhole : ∀ text, Traces P (resolveBy trace solve limit (limit + 1) text)
      (resolveBy silent solve limit (limit + 1) text)) :
    Traces P (evaluateBy trace solve limit separators text)
      (evaluateBy silent solve limit separators text) := by
  refine (traces_canonicalizeLiterals fun field _ hclosing =>
    hfields 3 field le_rfl hclosing).bind fun canonical _ => ?_
  refine (hwhole canonical).bind fun resolved hresolved => ?_
  have hfree : '(' ∉ resolved := not_mem_of_resolveBy hresolved
  refine Traces.bind ?_ fun value _ => Traces.ite (fun _ => traces_throw _) fun _ => traces_pure _
  refine Traces.ite (fun _ => (traces_read fun interior hinterior field hreached => ?_).map _)
    fun _ => (traces_known _).map _
  refine hfields 2 field (by decide) fun hmem => hfree ?_
  have hmem := (isInfix_of_mem_fieldsOf hreached.mem).subset hmem
  simp [hinterior, hmem]

theorem traces_evaluateBy_limit (solve : Text → Except Fault Float) (limit : Nat)
    (separators : Separators) (text : Text) :
    Traces (fun call => call.depth ≤ limit + 1) (evaluateBy trace solve limit separators text)
      (evaluateBy silent solve limit separators text) :=
  have hlimit := traces_resolveBy_limit solve limit
  traces_evaluateBy (fun _ text _ _ => hlimit limit text) (hlimit (limit + 1))

theorem traces_evaluateBy_four (hsolve : RefusesBrackets solve) (limit : Nat)
    (separators : Separators) (text : Text) :
    Traces (fun call => call.depth ≤ 4) (evaluateBy trace solve limit separators text)
      (evaluateBy silent solve limit separators text) := by
  refine traces_evaluateBy (fun rank text hrank htext => ?_) fun text => ?_
  · exact (traces_resolveBy hsolve (Nat.le_succ limit) htext).mono fun call hcall => by omega
  · have htext : HasRank 4 text := trivial
    exact (traces_resolveBy hsolve le_rfl htext).mono fun call hcall => by omega

theorem refusesBrackets_evaluate (limit : Nat) : RefusesBrackets (Scalar.evaluate limit) := by
  intro text hmem
  have hbracket : ¬Scalar.IsLexical ']' := by decide
  obtain ⟨cause, hcause⟩ := Scalar.solve_eq_error hmem hbracket limit
  exact ⟨cause, map_eq_error_iff.1 hcause⟩

end Depths

/-- The calls that an evaluation puts on the record, in order. -/
def evaluateCalls (solve : Text → Except Fault Float) (limit : Nat) (separators : Separators)
    (text : Text) : List Call :=
  ((evaluateBy trace solve limit separators text).run.run []).2

/-- The record changes nothing: with the solver of the calculator the outcome is that of
`evaluate`.  However an expression is written, evaluation calls itself at most four levels deep
where the solver for scalars refuses brackets, as that of the calculator does, and never deeper
than one level below the limit. -/
theorem evaluate_calls_bounded (solve : Text → Except Fault Float) (limit : Nat)
    (separators : Separators) (text : Text) :
    ((evaluateBy trace solve limit separators text).run.run []).1 =
      evaluateBy silent solve limit separators text ∧
    evaluateBy silent (Scalar.evaluate limit) limit separators text =
      evaluate limit separators text ∧
    RefusesBrackets (Scalar.evaluate limit) ∧
    ∀ call ∈ evaluateCalls solve limit separators text,
      call.depth ≤ limit + 1 ∧ (RefusesBrackets solve → call.depth ≤ 4) := by
  have hlimit := traces_evaluateBy_limit solve limit separators text
  have htraces : Traces (fun call => call.depth ≤ limit + 1 ∧
      (RefusesBrackets solve → call.depth ≤ 4)) (evaluateBy trace solve limit separators text)
      (evaluateBy silent solve limit separators text) := by
    refine hlimit.and ?_
    by_cases hsolve : RefusesBrackets solve
    · have hfour := traces_evaluateBy_four hsolve limit separators text
      exact hfour.mono fun call hcall _ => hcall
    · exact hlimit.mono fun call _ h => absurd h hsolve
  obtain ⟨calls, hrun, hcalls⟩ := htraces []
  refine ⟨congrArg Prod.fst hrun, evaluateBy_silent limit separators text,
    refusesBrackets_evaluate limit, fun call hcall => ?_⟩
  rw [evaluateCalls, hrun] at hcall
  exact hcalls call hcall

/-- Where the parentheses between brackets go, there can be literals between the first brackets
of an operand and its last ones, and calls on the fourth level for them.  A solver that takes
texts with brackets for numbers lets every level call the next one. -/
theorem evaluate_calls_deeper :
    ⟨4, ['2']⟩ ∈ evaluateCalls (Scalar.evaluate 64) 64 .canonical
      "[[(([)[1(])]x([)[2(])](])(])+1)]]".toList ∧
    ⟨5, ['2']⟩ ∈ evaluateCalls (fun _ => .ok 1) 64 .canonical
      "[[1]]1!%-[[1]]1!!%-[[1]]1!!!%-[[1]]1!!!!%-[[2]]]]]]]]]]+1".toList ∧
    ¬∀ solve limit separators text, ∀ call ∈ evaluateCalls solve limit separators text,
      call.depth ≤ 3 := by
  have hfour : ⟨4, ['2']⟩ ∈ evaluateCalls (Scalar.evaluate 64) 64 .canonical
      "[[(([)[1(])]x([)[2(])](])(])+1)]]".toList := by
    decide +kernel
  refine ⟨hfour, by decide +kernel, fun hbounded => ?_⟩
  exact absurd (hbounded _ _ _ _ _ hfour) (by decide)

end Expression

end MatrixCalculator
