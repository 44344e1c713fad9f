import MatrixCalculator.Numeral.MulAdd

/-!
# Matrices

A matrix is a list of rows of one width.  The width is part of the value, so the
shape is known also where there is no row.  Every operation builds its result
with `ofFn`, which gives it the shape and the entries at once: what is known of
an operation is `height`, `width` and `entry` of its result.
-/

namespace MatrixCalculator

structure Matrix (α : Type) where
  width : Nat
  rows : List (List α)
  uniform : ∀ row ∈ rows, row.length = width

namespace Matrix

variable {α β : Type}

def height (m : Matrix α) : Nat := m.rows.length

def SameShape (a : Matrix α) (b : Matrix β) : Prop := a.height = b.height ∧ a.width = b.width

instance (a : Matrix α) (b : Matrix β) : Decidable (SameShape a b) :=
  inferInstanceAs (Decidable (_ ∧ _))

def ofFn (height width : Nat) (f : Nat → Nat → α) : Matrix α where
  width := width
  rows := (List.range height).map fun i => (List.range width).map (f i)
  uniform := by simp

@[simp] theorem height_ofFn (height width : Nat) (f : Nat → Nat → α) :
    (ofFn height width f).height = height := by
  simp [Matrix.height, ofFn]

@[simp] theorem width_ofFn (height width : Nat) (f : Nat → Nat → α) :
    (ofFn height width f).width = width := rfl

/-- The entry of a row and a column, which is zero outside. -/
def entry [Zero α] (m : Matrix α) (i j : Nat) : α := (m.rows.getD i []).getD j 0

/-- The matrix of rows, each cut or filled with zeros to a width. -/
def ofRows [Zero α] (width : Nat) (rows : List (List α)) : Matrix α :=
  ofFn rows.length width fun i j => (rows.getD i []).getD j 0

@[simp] theorem height_ofRows [Zero α] (width : Nat) (rows : List (List α)) :
    (ofRows width rows).height = rows.length := by
  simp [ofRows]

@[simp] theorem width_ofRows [Zero α] (width : Nat) (rows : List (List α)) :
    (ofRows width rows).width = width := rfl

/-- The entries in reading order. -/
def entries (m : Matrix α) : List α := m.rows.flatten

def map (f : α → β) (m : Matrix α) : Matrix β where
  width := m.width
  rows := m.rows.map (List.map f)
  uniform := by simpa using m.uniform

@[simp] theorem height_map (f : α → β) (m : Matrix α) : (m.map f).height = m.height := by
  simp [Matrix.height, map]

@[simp] theorem width_map (f : α → β) (m : Matrix α) : (m.map f).width = m.width := rfl

/-- Entry by entry, in the shape of the first matrix. -/
def combine [Zero α] (f : α → α → α) (a b : Matrix α) : Matrix α :=
  ofFn a.height a.width fun i j => f (a.entry i j) (b.entry i j)

@[simp] theorem height_combine [Zero α] (f : α → α → α) (a b : Matrix α) :
    (combine f a b).height = a.height := by
  simp [combine]

@[simp] theorem width_combine [Zero α] (f : α → α → α) (a b : Matrix α) :
    (combine f a b).width = a.width := rfl

instance [Zero α] [Add α] : Add (Matrix α) := ⟨combine (· + ·)⟩

instance [Zero α] [Sub α] : Sub (Matrix α) := ⟨combine (· - ·)⟩

def columns [Zero α] (m : Matrix α) : List (List α) :=
  (List.range m.width).map fun j => (List.range m.height).map fun i => m.entry i j

def transpose [Zero α] (m : Matrix α) : Matrix α :=
  ofFn m.width m.height fun i j => m.entry j i

/-- The sum of a list from its first term on. -/
def sum [Zero α] [Add α] : List α → α
  | [] => 0
  | x :: xs => xs.foldl (· + ·) x

def dot [Zero α] [Add α] [Mul α] (row column : List α) : α :=
  sum (List.zipWith (· * ·) row column)

/-- The product of a row and a column, added up from zero. -/
def accumulate [Zero α] [MulAdd α] (row column : List α) : α :=
  (List.zip row column).foldl (fun sum (x, y) => MulAdd.mulAdd x y sum) 0

/-- A side up to this length makes a product small. -/
def smallSide : Nat := 5

/-- How the entries of the product of two matrices are added up: term by term in
a small one, and from zero with fewer roundings in any other. -/
def entryProduct [Zero α] [Add α] [Mul α] [MulAdd α] (a b : Matrix α) :
    List α → List α → α :=
  if smallSide < a.height ∧ smallSide < a.width ∧ smallSide < b.width then accumulate else dot

/-- The product, with the rows of the first matrix and the columns of the second
one. -/
def mul [Zero α] [Add α] [Mul α] [MulAdd α] (a b : Matrix α) : Matrix α where
  width := b.width
  rows := a.rows.map fun row => b.columns.map (entryProduct a b row)
  uniform := by simp [columns]

instance [Zero α] [Add α] [Mul α] [MulAdd α] : Mul (Matrix α) := ⟨mul⟩

def diagonal [Zero α] (values : List α) : Matrix α :=
  ofFn values.length values.length fun i j => if i = j then values.getD i 0 else 0

@[simp] theorem height_diagonal [Zero α] (values : List α) :
    (diagonal values).height = values.length := by
  simp [diagonal]

@[simp] theorem width_diagonal [Zero α] (values : List α) :
    (diagonal values).width = values.length := rfl

def identity [Zero α] [One α] (n : Nat) : Matrix α := diagonal (List.replicate n 1)

@[simp] theorem height_identity [Zero α] [One α] (n : Nat) :
    (identity n : Matrix α).height = n := by
  simp [identity]

@[simp] theorem width_identity [Zero α] [One α] (n : Nat) :
    (identity n : Matrix α).width = n := by
  simp [identity]

@[simp] theorem height_transpose [Zero α] (m : Matrix α) : m.transpose.height = m.width := by
  simp [transpose]

@[simp] theorem width_transpose [Zero α] (m : Matrix α) : m.transpose.width = m.height := rfl

@[simp] theorem height_mul [Zero α] [Add α] [Mul α] [MulAdd α] (a b : Matrix α) :
    (a * b).height = a.height := by
  simp [HMul.hMul, Mul.mul, mul, Matrix.height]

@[simp] theorem width_mul [Zero α] [Add α] [Mul α] [MulAdd α] (a b : Matrix α) :
    (a * b).width = b.width := rfl

/-- The factor `base`, taken `steps` times, behind `front`: each round squares
the base and halves what is left of the steps. -/
def powerLoop [Mul α] (front base : α) (steps : Nat) : α :=
  if steps = 0 then front
  else powerLoop (if steps % 2 = 1 then front * base else front) (base * base) (steps / 2)
termination_by steps

theorem powerLoop_zero [Mul α] (front base : α) : powerLoop front base 0 = front := by
  rw [powerLoop, if_pos rfl]

theorem powerLoop_of_ne [Mul α] {steps : Nat} (hsteps : steps ≠ 0) (front base : α) :
    powerLoop front base steps =
      powerLoop (if steps % 2 = 1 then front * base else front) (base * base) (steps / 2) := by
  rw [powerLoop, if_neg hsteps]

def powerBySquaring [Zero α] [One α] [Add α] [Mul α] [MulAdd α] (base : Matrix α)
    (steps : Nat) : Matrix α :=
  powerLoop (identity base.height) base steps

end Matrix

end MatrixCalculator
