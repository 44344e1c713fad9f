import MatrixCalculator.Literal.Shape
import Mathlib.Tactic

/-!
# What has the shape of a literal

The scan for a literal keeps every place of the pattern it may be at.  The pattern is
also a grammar of rows and fields, which says nothing of places.  Both find the same
texts: the scan is at a place exactly where a path through the pattern ends there, and
what is read along a path is made of the parts of the grammar.
-/

namespace MatrixCalculator.Literal

variable {separators : Separators} {text left right row : Text}

/-! ## The grammar -/

def IsNumeralRun (text : Text) : Prop := ∀ c ∈ text, Base.isNumeralChar c = true

/-- Whether a text is nothing, or a decimal point and what may follow it. -/
def IsPlainFraction (separators : Separators) (text : Text) : Prop :=
  text = [] ∨ ∃ digits, IsNumeralRun digits ∧ text = separators.decimalPoint :: digits

def IsPlainMagnitude (separators : Separators) (text : Text) : Prop :=
  ∃ whole fraction, IsNumeralRun whole ∧ IsPlainFraction separators fraction ∧
    text = whole ++ fraction

/-- Whether a text is a numeral of any base with an optional sign, where any part may
be missing. -/
def IsPlainField (separators : Separators) (text : Text) : Prop :=
  ∃ sign magnitude, (sign = [] ∨ sign = ['-'] ∨ sign = [Symbol.minus]) ∧
    IsPlainMagnitude separators magnitude ∧ text = sign ++ magnitude

/-- Whether a text is a row of plain fields, at least one, in brackets. -/
def IsPlainRow (separators : Separators) (text : Text) : Prop :=
  ∃ fields, fields ≠ [] ∧ (∀ field ∈ fields, IsPlainField separators field) ∧
    text = ['['] ++ [separators.matrix].intercalate fields ++ [']']

/-- Whether rows of plain fields, at least one, stand in brackets somewhere in a text. -/
def HasPlainLiteral (separators : Separators) (text : Text) : Prop :=
  ∃ before rows after, rows ≠ [] ∧ (∀ row ∈ rows, IsPlainRow separators row) ∧
    text = before ++ (['['] ++ rows.flatten ++ [']']) ++ after

theorem HasPlainLiteral.bracket_mem (hplain : HasPlainLiteral separators text) : '[' ∈ text := by
  obtain ⟨before, rows, after, -, -, rfl⟩ := hplain
  simp

/-! ## Paths -/

namespace Place

inductive Path (separators : Separators) : Place → Text → Place → Prop where
  | stay (place : Place) : Path separators place [] place
  | move {source between target : Place} {c : Char} {text : Text} :
      leads separators c source between = true → Path separators between text target →
        Path separators source (c :: text) target

variable {source between target : Place} {places : List Place} {c : Char}

theorem path_nil_iff : Path separators source [] target ↔ source = target := by
  constructor
  · rintro ⟨⟩
    rfl
  · rintro rfl
    exact .stay source

theorem path_cons_iff : Path separators source (c :: text) target ↔
    ∃ between, leads separators c source between = true ∧ Path separators between text target := by
  constructor
  · rintro ⟨⟩
    next between hleads hpath => exact ⟨between, hleads, hpath⟩
  · rintro ⟨between, hleads, hpath⟩
    exact .move hleads hpath

theorem path_singleton (hleads : leads separators c source target = true) :
    Path separators source [c] target :=
  .move hleads (.stay target)

theorem Path.append (hleft : Path separators source left between)
    (hright : Path separators between right target) :
    Path separators source (left ++ right) target := by
  induction hleft with
  | stay place => exact hright
  | move hleads _ ih => exact .move hleads (ih hright)

theorem mem_step_iff : target ∈ step separators places c ↔
    target = beforeRows ∧ c = '[' ∨
      ∃ source ∈ places, leads separators c source target = true := by
  have hall : target ∈ all := by cases target <;> decide
  simp [step, hall]

/-- The scan is at a place where a path has led from a place of the start, or from a
bracket that may begin a literal. -/
theorem mem_foldl_step_iff : target ∈ text.foldl (step separators) places ↔
    (∃ source ∈ places, Path separators source text target) ∨
      ∃ before part, text = before ++ '[' :: part ∧ Path separators beforeRows part target := by
  induction text generalizing places with
  | nil => simp [path_nil_iff]
  | cons c text ih =>
    rw [List.foldl_cons, ih]
    simp only [mem_step_iff, path_cons_iff]
    constructor
    · rintro (⟨between, ⟨rfl, rfl⟩ | ⟨source, hsource, hleads⟩, hpath⟩ | ⟨before, part, rfl, hpath⟩)
      · exact .inr ⟨[], text, rfl, hpath⟩
      · exact .inl ⟨source, hsource, between, hleads, hpath⟩
      · exact .inr ⟨c :: before, part, rfl, hpath⟩
    · rintro (⟨source, hsource, between, hleads, hpath⟩ | ⟨before, part, htext, hpath⟩)
      · exact .inl ⟨between, .inr ⟨source, hsource, hleads⟩, hpath⟩
      · cases before with
        | nil =>
          obtain ⟨rfl, rfl⟩ := List.cons.inj htext
          exact .inl ⟨beforeRows, .inl ⟨rfl, rfl⟩, hpath⟩
        | cons d before =>
          obtain ⟨rfl, rfl⟩ := List.cons.inj htext
          exact .inr ⟨before, part, rfl, hpath⟩

end Place

/-- A text has the shape of a literal in it where a path leads from a bracket to the end
of the pattern. -/
theorem occursIn_iff_path : occursIn separators text = true ↔
    ∃ before part, text = before ++ '[' :: part ∧
      Place.Path separators .beforeRows part .complete := by
  rw [occursIn, List.contains_iff_mem, Place.mem_foldl_step_iff]
  simp

/-! ## Parts along paths -/

namespace Place

variable {source target : Place} {c : Char} {fields rows : List Text}

/-- Whether a character behind a field leads to a place. -/
def EndsField (separators : Separators) (c : Char) (target : Place) : Prop :=
  target = fieldStart ∧ c = separators.matrix ∨ target = afterRow ∧ c = ']'

theorem endsField_iff : endsField separators c target = true ↔ EndsField separators c target := by
  cases target <;> simp [endsField, EndsField]

theorem leads_rowStart_iff (hsource : source = beforeRows ∨ source = afterRow) :
    leads separators c source target = true ↔
      target = fieldStart ∧ c = '[' ∨ source = afterRow ∧ target = complete ∧ c = ']' := by
  rcases hsource with rfl | rfl <;> cases target <;> simp [leads]

theorem leads_fieldStart_iff : leads separators c fieldStart target = true ↔
    target = whole ∧ (c ∈ ['-', Symbol.minus] ∨ Base.isNumeralChar c = true) ∨
      target = fraction ∧ c = separators.decimalPoint ∨ EndsField separators c target := by
  rw [← endsField_iff]
  cases target <;> simp [leads, endsField]

theorem leads_whole_iff : leads separators c whole target = true ↔
    target = whole ∧ Base.isNumeralChar c = true ∨
      target = fraction ∧ c = separators.decimalPoint ∨ EndsField separators c target := by
  rw [← endsField_iff]
  cases target <;> simp [leads, endsField]

theorem leads_fraction_iff : leads separators c fraction target = true ↔
    target = fraction ∧ Base.isNumeralChar c = true ∨ EndsField separators c target := by
  rw [← endsField_iff]
  cases target <;> simp [leads, endsField]

/-! ### From the parts to a path -/

/-- Whether a field may end at a place. -/
def MayEndField (separators : Separators) (place : Place) : Prop :=
  ∀ c target, EndsField separators c target → leads separators c place target = true

theorem mayEndField_fieldStart : MayEndField separators fieldStart :=
  fun _ _ hends => leads_fieldStart_iff.2 (.inr (.inr hends))

theorem mayEndField_whole : MayEndField separators whole :=
  fun _ _ hends => leads_whole_iff.2 (.inr (.inr hends))

theorem mayEndField_fraction : MayEndField separators fraction :=
  fun _ _ hends => leads_fraction_iff.2 (.inr hends)

theorem path_run (hrun : IsNumeralRun text) (hplace : target = whole ∨ target = fraction) :
    Path separators target text target := by
  induction text with
  | nil => exact .stay target
  | cons c text ih =>
    obtain ⟨hc, hrun⟩ := List.forall_mem_cons.1 hrun
    refine .move ?_ (ih hrun)
    rcases hplace with rfl | rfl
    · exact leads_whole_iff.2 (.inl ⟨rfl, hc⟩)
    · exact leads_fraction_iff.2 (.inl ⟨rfl, hc⟩)

/-- A path over a numeral from in front of its whole part. -/
theorem exists_path_magnitude (hmagnitude : IsPlainMagnitude separators text)
    (hsource : source = fieldStart ∨ source = whole) :
    ∃ target, MayEndField separators target ∧ Path separators source text target := by
  obtain ⟨digits, rest, hdigits, hrest, rfl⟩ := hmagnitude
  obtain ⟨between, hbetween, hwhole⟩ : ∃ between, (between = fieldStart ∨ between = whole) ∧
      Path separators source digits between := by
    cases digits with
    | nil => exact ⟨source, hsource, .stay source⟩
    | cons c digits =>
      obtain ⟨hc, hdigits⟩ := List.forall_mem_cons.1 hdigits
      refine ⟨whole, .inr rfl, .move ?_ (path_run hdigits (.inl rfl))⟩
      rcases hsource with rfl | rfl
      · exact leads_fieldStart_iff.2 (.inl ⟨rfl, .inr hc⟩)
      · exact leads_whole_iff.2 (.inl ⟨rfl, hc⟩)
  rcases hrest with rfl | ⟨digits', hdigits', rfl⟩
  · refine ⟨between, ?_, hwhole.append (.stay between)⟩
    rcases hbetween with rfl | rfl
    · exact mayEndField_fieldStart
    · exact mayEndField_whole
  · refine ⟨fraction, mayEndField_fraction, hwhole.append (.move ?_ (path_run hdigits' (.inr rfl)))⟩
    rcases hbetween with rfl | rfl
    · exact leads_fieldStart_iff.2 (.inr (.inl ⟨rfl, rfl⟩))
    · exact leads_whole_iff.2 (.inr (.inl ⟨rfl, rfl⟩))

theorem exists_path_field (hfield : IsPlainField separators text) :
    ∃ target, MayEndField separators target ∧ Path separators fieldStart text target := by
  obtain ⟨sign, magnitude, hsign, hmagnitude, rfl⟩ := hfield
  obtain ⟨target, hends, hpath⟩ := exists_path_magnitude hmagnitude (.inr rfl)
  rcases hsign with rfl | rfl | rfl
  · exact exists_path_magnitude hmagnitude (.inl rfl)
  · exact ⟨target, hends, .move (leads_fieldStart_iff.2 (.inl ⟨rfl, .inl (by simp)⟩)) hpath⟩
  · exact ⟨target, hends, .move (leads_fieldStart_iff.2 (.inl ⟨rfl, .inl (by simp)⟩)) hpath⟩

theorem path_fields (hne : fields ≠ [])
    (hfields : ∀ field ∈ fields, IsPlainField separators field) :
    Path separators fieldStart ([separators.matrix].intercalate fields ++ [']']) afterRow := by
  induction fields with
  | nil => exact absurd rfl hne
  | cons field fields ih =>
    obtain ⟨hfield, hfields⟩ := List.forall_mem_cons.1 hfields
    obtain ⟨between, hends, hpath⟩ := exists_path_field hfield
    cases fields with
    | nil =>
      rw [List.intercalate_singleton]
      exact hpath.append (path_singleton (hends ']' afterRow (.inr ⟨rfl, rfl⟩)))
    | cons next fields =>
      rw [List.intercalate_cons_cons, List.append_assoc, List.append_assoc]
      refine hpath.append (.move (hends _ fieldStart (.inl ⟨rfl, rfl⟩)) ?_)
      exact ih (List.cons_ne_nil _ _) hfields

theorem path_row (hrow : IsPlainRow separators text)
    (hsource : source = beforeRows ∨ source = afterRow) :
    Path separators source text afterRow := by
  obtain ⟨fields, hne, hfields, rfl⟩ := hrow
  exact .move ((leads_rowStart_iff hsource).2 (.inl ⟨rfl, rfl⟩)) (path_fields hne hfields)

theorem path_rows (hrows : ∀ row ∈ rows, IsPlainRow separators row) :
    Path separators afterRow rows.flatten afterRow := by
  induction rows with
  | nil => exact .stay afterRow
  | cons row rows ih =>
    obtain ⟨hrow, hrows⟩ := List.forall_mem_cons.1 hrows
    exact (path_row hrow (.inr rfl)).append (ih hrows)

theorem path_complete (text : Text) : Path separators complete text complete := by
  induction text with
  | nil => exact .stay complete
  | cons c text ih => exact .move rfl ih

/-! ### From a path to the parts -/

/-- Whether rows and the bracket behind them stand at the head of a text. -/
def EndsRows (separators : Separators) (text : Text) : Prop :=
  ∃ (rows : List Text) (after : Text), (∀ row ∈ rows, IsPlainRow separators row) ∧
    text = rows.flatten ++ ']' :: after

/-- Whether the rest of a field, more fields and the end of the rows stand at the head of
a text. -/
def EndsRow (separators : Separators) (isRest : Text → Prop) (text : Text) : Prop :=
  ∃ field fields after, isRest field ∧ (∀ field ∈ fields, IsPlainField separators field) ∧
    EndsRows separators after ∧
    text = [separators.matrix].intercalate (field :: fields) ++ ']' :: after

/-- Whether a text begins with what has to follow a place of the pattern. -/
def Completes (separators : Separators) : Place → Text → Prop
  | beforeRows, text => ∃ row after, IsPlainRow separators row ∧ EndsRows separators after ∧
      text = row ++ after
  | fieldStart, text => EndsRow separators (IsPlainField separators) text
  | whole, text => EndsRow separators (IsPlainMagnitude separators) text
  | fraction, text => EndsRow separators IsNumeralRun text
  | afterRow, text => EndsRows separators text
  | complete, _ => True

variable {isRest isLonger : Text → Prop}

theorem EndsRow.cons (hends : EndsRow separators isRest text)
    (hlonger : ∀ rest, isRest rest → isLonger (c :: rest)) :
    EndsRow separators isLonger (c :: text) := by
  obtain ⟨field, fields, after, hfield, hfields, hafter, rfl⟩ := hends
  refine ⟨c :: field, fields, after, hlonger field hfield, hfields, hafter, ?_⟩
  cases fields <;> simp [List.intercalate_cons_cons]

/-- A field that may end in front of a character that ends it. -/
theorem endsRow_of_endsField (hnil : isRest []) (hends : EndsField separators c target)
    (htext : Completes separators target text) : EndsRow separators isRest (c :: text) := by
  rcases hends with ⟨rfl, rfl⟩ | ⟨rfl, rfl⟩
  · obtain ⟨field, fields, after, hfield, hfields, hafter, rfl⟩ := htext
    exact ⟨[], field :: fields, after, hnil, List.forall_mem_cons.2 ⟨hfield, hfields⟩, hafter, rfl⟩
  · exact ⟨[], [], text, hnil, nofun, htext, rfl⟩

theorem exists_row_of_endsRow (hends : EndsRow separators (IsPlainField separators) text) :
    ∃ row after, IsPlainRow separators row ∧ EndsRows separators after ∧
      '[' :: text = row ++ after := by
  obtain ⟨field, fields, after, hfield, hfields, hafter, rfl⟩ := hends
  refine ⟨_, after, ⟨field :: fields, List.cons_ne_nil _ _,
    List.forall_mem_cons.2 ⟨hfield, hfields⟩, rfl⟩, hafter, ?_⟩
  simp

theorem isPlainFraction_nil : IsPlainFraction separators [] := .inl rfl

theorem isPlainMagnitude_nil : IsPlainMagnitude separators [] :=
  ⟨[], [], nofun, isPlainFraction_nil, rfl⟩

theorem isPlainMagnitude_point (hrun : IsNumeralRun text) :
    IsPlainMagnitude separators (separators.decimalPoint :: text) :=
  ⟨[], _, nofun, .inr ⟨text, hrun, rfl⟩, rfl⟩

theorem isPlainMagnitude_cons (hc : Base.isNumeralChar c = true)
    (hmagnitude : IsPlainMagnitude separators text) : IsPlainMagnitude separators (c :: text) := by
  obtain ⟨digits, rest, hdigits, hrest, rfl⟩ := hmagnitude
  exact ⟨c :: digits, rest, List.forall_mem_cons.2 ⟨hc, hdigits⟩, hrest, rfl⟩

theorem isPlainField_of_magnitude (hmagnitude : IsPlainMagnitude separators text) :
    IsPlainField separators text :=
  ⟨[], text, by simp, hmagnitude, rfl⟩

theorem isPlainField_sign (hc : c ∈ ['-', Symbol.minus])
    (hmagnitude : IsPlainMagnitude separators text) : IsPlainField separators (c :: text) :=
  ⟨[c], text, by simpa using hc, hmagnitude, rfl⟩

/-- What is read on a path to the end of the pattern is what has to follow its start. -/
theorem completes_of_path (hpath : Path separators source text complete) :
    Completes separators source text := by
  induction text generalizing source with
  | nil =>
    obtain rfl := path_nil_iff.1 hpath
    trivial
  | cons c text ih =>
    obtain ⟨between, hleads, hpath⟩ := path_cons_iff.1 hpath
    have hrest := ih hpath
    cases source with
    | beforeRows =>
      rcases (leads_rowStart_iff (.inl rfl)).1 hleads with ⟨rfl, rfl⟩ | ⟨hplace, -⟩
      · exact exists_row_of_endsRow hrest
      · cases hplace
    | fieldStart =>
      rcases leads_fieldStart_iff.1 hleads with ⟨rfl, hc | hc⟩ | ⟨rfl, rfl⟩ | hends
      · exact hrest.cons fun _ => isPlainField_sign hc
      · exact hrest.cons fun _ h => isPlainField_of_magnitude (isPlainMagnitude_cons hc h)
      · exact hrest.cons fun _ h => isPlainField_of_magnitude (isPlainMagnitude_point h)
      · exact endsRow_of_endsField (isPlainField_of_magnitude isPlainMagnitude_nil) hends hrest
    | whole =>
      rcases leads_whole_iff.1 hleads with ⟨rfl, hc⟩ | ⟨rfl, rfl⟩ | hends
      · exact hrest.cons fun _ => isPlainMagnitude_cons hc
      · exact hrest.cons fun _ => isPlainMagnitude_point
      · exact endsRow_of_endsField isPlainMagnitude_nil hends hrest
    | fraction =>
      rcases leads_fraction_iff.1 hleads with ⟨rfl, hc⟩ | hends
      · exact hrest.cons fun _ h => List.forall_mem_cons.2 ⟨hc, h⟩
      · exact endsRow_of_endsField nofun hends hrest
    | afterRow =>
      rcases (leads_rowStart_iff (.inr rfl)).1 hleads with ⟨rfl, rfl⟩ | ⟨-, rfl, rfl⟩
      · obtain ⟨row, after, hrow, ⟨rows, after, hrows, rfl⟩, htext⟩ := exists_row_of_endsRow hrest
        exact ⟨row :: rows, after, List.forall_mem_cons.2 ⟨hrow, hrows⟩, by simp [htext]⟩
      · exact ⟨[], text, nofun, rfl⟩
    | complete => trivial

end Place

/-- The scan finds the shape of a literal exactly where rows of plain fields stand in
brackets. -/
theorem occursIn_iff : occursIn separators text = true ↔ HasPlainLiteral separators text := by
  rw [occursIn_iff_path]
  constructor
  · rintro ⟨before, part, rfl, hpath⟩
    obtain ⟨row, _, hrow, ⟨rows, after, hrows, rfl⟩, rfl⟩ := Place.completes_of_path hpath
    exact ⟨before, row :: rows, after, List.cons_ne_nil _ _,
      List.forall_mem_cons.2 ⟨hrow, hrows⟩, by simp⟩
  · rintro ⟨before, rows, after, hne, hrows, rfl⟩
    obtain ⟨row, rows, rfl⟩ := List.exists_cons_of_ne_nil hne
    obtain ⟨hrow, hrows⟩ := List.forall_mem_cons.1 hrows
    refine ⟨before, row ++ (rows.flatten ++ ']' :: after), by simp, ?_⟩
    exact (Place.path_row hrow (.inl rfl)).append ((Place.path_rows hrows).append
      (.move rfl (Place.path_complete after)))

end MatrixCalculator.Literal
