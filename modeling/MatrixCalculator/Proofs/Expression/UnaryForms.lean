import MatrixCalculator.Proofs.Expression.FlatChain
import MatrixCalculator.Proofs.Expression.Functions
import MatrixCalculator.Proofs.Expression.Marks
import MatrixCalculator.Proofs.Scalar.UnaryForms

/-!
# Unary forms as expressions with matrices

The passes spell a percent mark as a factor behind its numeral, replace a function and
its numeral by the written value, and take a sign for the one of its numeral.  So the
evaluator of expressions with matrices finds the value of the chain in which percent
marks are factors, and this is the value of the scalar evaluator in exact arithmetic
wherever no operator binds tighter than a form beside it.
-/

namespace MatrixCalculator

open Chain Numeral Outcome Text

namespace Expression

variable {c : Char} {previous : Option Char} {left right : Text} {first : UnaryTerm}
  {links : Links UnaryTerm} {limit : Nat} {evaluate : Text → Except Fault Text}

/-! ## The text of a chain -/

def unaryAlphabet : Text :=
  numeralAlphabet ++ operatorAlphabet ++ '%' :: NamedFunction.spellings.flatMap Prod.fst

theorem not_mem_term (t : UnaryTerm) (hc : c ∉ unaryAlphabet) : c ∉ t.text := by
  obtain ⟨form, numeral⟩ := t
  simp only [unaryAlphabet, List.mem_append, List.mem_cons, List.mem_flatMap, not_or,
    not_exists, not_and] at hc
  obtain ⟨⟨hnumeral, -⟩, hpercent, hnames⟩ := hc
  have hmagnitude : c ∉ numeral.text := not_mem_signed ⟨false, numeral⟩ hnumeral
  have hnegated : c ∉ '-' :: numeral.text := not_mem_signed ⟨true, numeral⟩ hnumeral
  cases form with
  | bare => exact hmagnitude
  | negated => exact hnegated
  | percent => simp [UnaryTerm.text, hmagnitude, hpercent]
  | applied name => simp [UnaryTerm.text, hmagnitude, hnames name.1 name.2]

theorem not_mem_unaryText (first : UnaryTerm) (links : Links UnaryTerm) (hc : c ∉ unaryAlphabet) :
    c ∉ unaryText first links := by
  induction links generalizing first with
  | nil =>
    rw [unaryText_nil]
    exact not_mem_term first hc
  | cons link links ih =>
    have hop : c ∉ operatorAlphabet := fun h =>
      hc (List.mem_append_left _ (List.mem_append_right _ h))
    rw [unaryText_cons]
    simp only [List.mem_append, not_or]
    exact ⟨not_mem_term first hc, not_mem_symbol link.1 hop, ih link.2⟩

theorem enter_unaryText (first : UnaryTerm) (links : Links UnaryTerm) :
    Display.enter Separators.canonical (unaryText first links) = unaryText first links := by
  have hentered : ∀ c ∈ unaryAlphabet, Display.isLayout Separators.canonical c = false ∧
      Display.enterChar Separators.canonical c = c :=
    List.all_iff_forall_prop.1 (by decide)
  refine enter_of_forall fun c hc => hentered c ?_
  by_contra hmem
  exact not_mem_unaryText first links hmem hc

/-! ## Percent marks -/

theorem spellPercents_append_of_not_mem (hleft : '%' ∉ left) :
    spellPercents previous (left ++ right) =
      left ++ spellPercents (ending previous left) right := by
  induction left generalizing previous with
  | nil => rfl
  | cons c left ih =>
    obtain ⟨hne, hleft⟩ := not_or.1 (List.mem_cons.not.1 hleft)
    rw [List.cons_append, spellPercents, if_neg (fun h => hne h.1.symm), ih hleft]
    rfl

theorem percent_not_mem_term {t : UnaryTerm} (hform : t.form ≠ .percent) : '%' ∉ t.text := by
  obtain ⟨form, numeral⟩ := t
  have hnames : ∀ entry ∈ NamedFunction.spellings, '%' ∉ entry.1 := by decide
  have hmagnitude : '%' ∉ numeral.text := not_mem_signed ⟨false, numeral⟩ (by decide)
  cases form with
  | bare => exact hmagnitude
  | negated => simp [UnaryTerm.text, hmagnitude]
  | percent => exact absurd rfl hform
  | applied name => simp [UnaryTerm.text, hmagnitude, hnames name.1 name.2]

/-- A percent mark behind an operand becomes a factor. -/
theorem spellPercents_term (t : UnaryTerm) :
    spellPercents previous t.text = unaryText t.spelled (spelledLinks t []) := by
  by_cases hform : t.form = .percent
  · obtain ⟨form, numeral⟩ := t
    obtain rfl : form = .percent := hform
    have hnumeral : '%' ∉ numeral.text := not_mem_signed ⟨false, numeral⟩ (by decide)
    obtain ⟨c, hc, hending⟩ := ending_spelling previous numeral
    have hmark : spellPercents (some c) ['%'] = percentFactor := by
      rw [spellPercents, if_pos ⟨rfl, hc, rfl⟩]
      rfl
    rw [UnaryTerm.text, spellPercents_append_of_not_mem hnumeral, hending, hmark,
      spelledLinks_percent rfl, unaryText_cons, unaryText_nil]
    rfl
  · rw [spellPercents_eq (percent_not_mem_term hform), t.spelled_of_not_percent hform,
      spelledLinks_of_not_percent hform, unaryText_nil]

/-- The percent marks of a chain become factors of the chain. -/
theorem spellPercents_unaryText (first : UnaryTerm) (links : Links UnaryTerm) :
    spellPercents previous (unaryText first links) =
      unaryText first.spelled (spelledLinks first links) := by
  induction links generalizing first previous with
  | nil => rw [unaryText_nil, spellPercents_term]
  | cons link links ih =>
    obtain ⟨op, next⟩ := link
    have hsplit := spelledLinks_append first next op [] links
    rw [List.nil_append] at hsplit
    obtain ⟨c, symbol, hsymbol, hc⟩ : ∃ c symbol, op.symbol = c :: symbol ∧ c.isDigit = false := by
      cases op <;> exact ⟨_, _, rfl, by decide⟩
    have hcut : spellPercents previous (first.text ++ (op.symbol ++ unaryText next links)) =
        spellPercents previous first.text ++
          spellPercents (ending previous first.text) (op.symbol ++ unaryText next links) := by
      rw [hsymbol]
      exact spellPercents_append hc
    rw [unaryText_cons, hcut, spellPercents_append_of_not_mem (not_mem_symbol op (by decide)), ih,
      spellPercents_term, hsplit, unaryText_append]

/-- What holds of the operands without their percent marks and of the factor. -/
theorem forall_mem_spelled {p : UnaryTerm → Prop} (hfactor : p ⟨.bare, hundredth⟩)
    (hspelled : ∀ t ∈ first :: links.map Prod.snd, p t.spelled) :
    ∀ t ∈ first.spelled :: (spelledLinks first links).map Prod.snd, p t := by
  have hpercent : ∀ t : UnaryTerm, ∀ link ∈ t.percentLinks, p link.2 := by
    intro t link hlink
    rw [UnaryTerm.percentLinks] at hlink
    split at hlink
    · rwa [List.mem_singleton.1 hlink]
    · cases hlink
  obtain ⟨hfirst, hlinks⟩ := List.forall_mem_cons.1 hspelled
  refine List.forall_mem_cons.2 ⟨hfirst, List.forall_mem_map.2 (List.forall_mem_append.2 ⟨?_, ?_⟩)⟩
  · exact hpercent first
  · refine List.forall_mem_flatMap.2 fun link hlink => List.forall_mem_cons.2 ⟨?_, hpercent link.2⟩
    exact hlinks link.2 (List.mem_map_of_mem hlink)

theorem form_spelled (t : UnaryTerm) : t.spelled.form ≠ .percent := by
  rw [UnaryTerm.spelled]
  split
  · intro hbare
    cases hbare
  · next hform => exact hform

theorem isReplaceable_spelled {t : UnaryTerm} (hreplaceable : t.IsReplaceable) :
    t.spelled.IsReplaceable := by
  rw [UnaryTerm.spelled]
  split
  · trivial
  · exact hreplaceable

/-! ## Values -/

/-- Whether a text is a numeral of a number, or what is written of it. -/
def StandsFor (text : Text) (x : Float) : Prop := SpellsDouble text x ∨ text = write x

/-- What the passes leave of a chain stands for the value of the chain in which the percent
marks are factors. -/
theorem exists_passes_unaryText
    (hreplaceable : ∀ t ∈ first :: links.map Prod.snd, t.IsReplaceable) :
    ∃ resolved, passes limit evaluate (unaryText first links) = .ok resolved ∧
      StandsFor resolved
        (unaryValue .writtenDoubles first.spelled (spelledLinks first links)) := by
  have hmarks : ∀ c ∈ ['!', '(', ')', 'T', '\ufeff'], c ∉ unaryAlphabet :=
    List.all_iff_forall_prop.1 (by decide)
  obtain ⟨s, replaced, hvalue, hreplaced⟩ := exists_replaceAll evaluate first.spelled
    (spelledLinks first links) (forall_mem_spelled (by decide) fun t _ => form_spelled t)
    (forall_mem_spelled trivial fun t ht => isReplaceable_spelled (hreplaceable t ht))
  obtain ⟨resolved, hreduced, hresolved⟩ := exists_reduceText_chain limit evaluate
    (Scalar.chainTree_eval s replaced)
  have hpasses : passes limit evaluate (unaryText first links) = _ :=
    passes_of_unmarked (keepsLiterals_of_not_mem (not_mem_unaryText first links (by decide)))
      (spellPercents_unaryText first links)
      (fun c hc => not_mem_unaryText _ _ (hmarks c hc)) hreplaced
      (spellConstants_eq (fits_chainText s replaced none))
  refine ⟨resolved, hpasses.trans hreduced, ?_⟩
  rw [← hvalue]
  refine hresolved.imp ?_ id
  rintro ⟨rfl, rfl⟩
  exact ⟨s, rfl, linkValue_nil.symm⟩

def written? (x : Float) : Option Text := if x.isNaN then none else some (write x)

/-- The report of what the passes leave. -/
theorem toOption_report {resolved : Text} {x : Float} (hresolved : StandsFor resolved x) :
    (do
      let value ← operand limit evaluate resolved
      if contains notANumberWord value.write then throw .notANumber
      else return value.write : Except Fault Text).toOption = written? x := by
  have hreport : ∀ y : Float, operand limit evaluate resolved = .ok (.scalar y) →
      write y = write x → x.isNaN = false → (do
        let value ← operand limit evaluate resolved
        if contains notANumberWord value.write then throw .notANumber
        else return value.write : Except Fault Text).toOption = written? x := by
    intro y hread hwrite hx
    have hcontains : contains notANumberWord (write x) = false :=
      (Operand.contains_write_iff (.scalar x)).2 hx
    rw [hread, ok_bind, Operand.write, hwrite, hcontains, written?, hx]
    rfl
  rcases hresolved with ⟨s, rfl, rfl⟩ | rfl
  · exact hreport s.value (operand_signed s) rfl s.not_isNaN_value
  · cases hnumber : x.isNaN with
    | true =>
      rw [operand_of_no_literal (not_mem_number x (by decide)),
        Scalar.evaluate_write_of_isNaN hnumber, map_error, error_bind, written?, hnumber]
      rfl
    | false => exact hreport (shown x) (operand_scalar hnumber) (write_shown x) hnumber

/-- The evaluator of expressions with matrices finds the value of the chain in which the
percent marks are factors. -/
theorem evaluate_unaryText (hreplaceable : ∀ t ∈ first :: links.map Prod.snd, t.IsReplaceable) :
    (Expression.evaluate limit Separators.canonical (unaryText first links)).toOption =
      written? (unaryValue .writtenDoubles first.spelled (spelledLinks first links)) := by
  obtain ⟨resolved, hpasses, hresolved⟩ := exists_passes_unaryText hreplaceable
  rw [evaluate_of_entered (enter_unaryText first links)
    (keepsLiterals_of_not_mem (not_mem_unaryText first links (by decide))), hpasses, ok_bind,
    toOption_report hresolved]

/-- A chain that leaves its forms to its operands has one meaning.  The scalar evaluator
finds its value in doubles, the evaluator of expressions with matrices the one with percent
marks as factors and written values of functions, and in exact arithmetic both are equal,
whatever powers, remainders and functions are. -/
theorem evaluate_unaryForms (hlimit : 0 < limit) (hbinds : BindsAlike first links)
    (hreplaceable : ∀ t ∈ first :: links.map Prod.snd, t.IsReplaceable) :
    (Scalar.solve limit (unaryText first links)).toOption =
        written? (unaryValue .doubles first links) ∧
      (Expression.evaluate limit Separators.canonical (unaryText first links)).toOption =
        written? (unaryValue .writtenDoubles first.spelled (spelledLinks first links)) ∧
      ∀ power modulo function,
        unaryValue (.exact power modulo function) first.spelled (spelledLinks first links) =
          unaryValue (.exact power modulo function) first links := by
  refine ⟨?_, evaluate_unaryText hreplaceable, unaryValue_exact hbinds⟩
  rw [Scalar.solve, Scalar.evaluate_unaryText hlimit hbinds, written?]
  split <;> rfl

theorem evaluate_negated_applied_percent :
    (Scalar.solve 64 "-1+det4×5%".toList).toOption = some "-0.8".toList ∧
      (Expression.evaluate 64 Separators.canonical "-1+det4×5%".toList).toOption =
        some "-0.8".toList := by
  have htext : "-1+det4×5%".toList =
      unaryText ⟨.negated, .ofDigits (.single '1' (by decide))⟩
        [(.add, ⟨.applied ⟨("det".toList, .det), by decide⟩, .ofDigits (.single '4' (by decide))⟩),
          (.mul, ⟨.percent, .ofDigits (.single '5' (by decide))⟩)] := by
    decide +kernel
  rw [htext]
  constructor
  · exact (evaluate_unaryForms (by decide) (by decide +kernel) (by decide +kernel)).1.trans
      (by decide +kernel)
  · exact (evaluate_unaryForms (by decide) (by decide +kernel) (by decide +kernel)).2.1.trans
      (by decide +kernel)

/-- A divisor with a percent mark is the hundredth part of its numeral in one evaluator and
the numeral in the other. -/
theorem evaluate_quotient_by_percent :
    Scalar.solve 64 "10÷50%".toList = .ok "20".toList ∧
      Expression.evaluate 64 Separators.canonical "10÷50%".toList = .ok "0.002".toList := by
  decide +kernel

end Expression

end MatrixCalculator
