import MatrixCalculator.Matrix.Rotation

/-!
# Eigenvalues of symmetric matrices

A symmetric matrix is reflected on both sides to a tridiagonal one, and the
tridiagonal one is rotated until nothing is left beside the diagonal.  Only the
lower triangle is read: a matrix is given by its columns from the diagonal
down, each shorter by one than the one before it.
-/

namespace MatrixCalculator.Matrix

/-- A product of a basis, a symmetric tridiagonal matrix and the transposed
basis.  The vectors of the basis are its columns. -/
structure Tridiagonal where
  diagonal : List Float
  beside : List Float
  basis : List (List Float)

namespace Tridiagonal

/-- The columns behind the first one of twice the product with a vector, added to
what the columns before them have contributed. -/
def doubledProductRest : (columns : List (List Float)) → (v product : List Float) → List Float
  | column :: columns, x :: v, p :: product =>
    (p + 2.0 * inner column (x :: v)) ::
      doubledProductRest columns v
        (List.zipWith (fun a q => 2.0 * x * a + q) column.tail product)
  | _, _, _ => []

/-- Twice the product of a symmetric matrix, given by its lower triangle, and a
vector. -/
def doubledProduct (columns : List (List Float)) (v : List Float) : List Float :=
  match columns, v with
  | column :: columns, x :: v =>
    match column.map (2.0 * x * ·) with
    | p :: product => (p + 2.0 * inner column.tail v) :: doubledProductRest columns v product
    | [] => []
  | _, _ => []

def addProduct (factor : Float) :
    (columns : List (List Float)) → (x y : List Float) → List (List Float)
  | column :: columns, x@(_ :: xs), y :: ys =>
    List.zipWith (fun m a => factor * y * a + m) column x :: addProduct factor columns xs ys
  | _, _, _ => []

/-- The lower triangle of a symmetric matrix reflected on both sides. -/
def reflectBoth (columns : List (List Float)) (axis : List Float) : List (List Float) :=
  let p := doubledProduct columns axis
  let columns := addProduct (-1.0) columns p axis
  let columns := addProduct (-1.0) columns axis p
  addProduct (inner axis p * 2.0) columns axis axis

/-- The tridiagonal form of a symmetric matrix of `size` rows, given by its lower
triangle.  A column too short to be reflected still gives its sign to the
basis. -/
def ofTriangle : (size : Nat) → (columns : List (List Float)) → Tridiagonal
  | 0, _ => ⟨[], [], []⟩
  | size + 1, columns =>
    let column := columns.headD []
    if size = 0 then ⟨[column.headD 0], [], [[1.0]]⟩
    else
      let (r, beside) := Reflection.ofVector column.tail
      let others :=
        match r with
        | some r => reflectBoth columns.tail r.axis
        | none => columns.tail
      let rest := ofTriangle size others
      let r := r.getD ⟨column.tail, signOf beside⟩
      ⟨column.headD 0 :: rest.diagonal, beside.abs :: rest.beside,
        extendBasis (size + 1) (rest.basis.map r.applyDown)⟩

def diagonalAt (t : Tridiagonal) (i : Nat) : Float := t.diagonal.getD i 0

def besideAt (t : Tridiagonal) (i : Nat) : Float := t.beside.getD i 0

def setDiagonal (t : Tridiagonal) (i : Nat) (x : Float) : Tridiagonal :=
  { t with diagonal := t.diagonal.set i x }

def setBeside (t : Tridiagonal) (i : Nat) (x : Float) : Tridiagonal :=
  { t with beside := t.beside.set i x }

def turnBasis (t : Tridiagonal) (r : Rotation) (i : Nat) : Tridiagonal :=
  { t with basis := r.turnAt i (i + 1) t.basis }

/-- Whether the entry beside a diagonal entry vanishes between its neighbours. -/
def vanishes (t : Tridiagonal) (i : Nat) : Bool :=
  (t.besideAt i).abs <= unitRoundoff * ((t.diagonalAt (i + 1)).abs + (t.diagonalAt i).abs)

/-- Whether the entry beside a diagonal entry stands out between its neighbours.
Where one of the three is not a number it neither stands out nor vanishes. -/
def standsOut (t : Tridiagonal) (i : Nat) : Bool :=
  unitRoundoff * ((t.diagonalAt (i + 1)).abs + (t.diagonalAt i).abs) < (t.besideAt i).abs

/-- The last place below `last + 1` that still has an entry beside the diagonal
in front of it. -/
def trimEnd (t : Tridiagonal) : (last : Nat) → Nat
  | 0 => 0
  | m + 1 => if t.standsOut m then m + 1 else trimEnd t m

/-- The first place of the block that ends at a place and has no zero beside its
diagonal. -/
def blockStart (t : Tridiagonal) : (start : Nat) → Tridiagonal × Nat
  | 0 => (t, 0)
  | m + 1 =>
    if t.besideAt m == 0 || t.vanishes m then (t.setBeside m 0, m + 1) else blockStart t m

/-- The last block, up to a place, that is not diagonal yet. -/
def block (t : Tridiagonal) (last : Nat) : Tridiagonal × Nat × Nat :=
  match t.trimEnd last with
  | 0 => (t, 0, 0)
  | n + 1 =>
    let (t, start) := t.blockStart n
    (t, start, n + 1)

/-- One round of rotations along a block. -/
def chase (start last : Nat) : (places : List Nat) → (x y : Float) → Tridiagonal → Tridiagonal
  | [], _, _, t => t
  | i :: places, x, y, t =>
    match Rotation.clearSecond? x y with
    | none => t
    | some (r, length) =>
      let t := if start < i then t.setBeside (i - 1) length else t
      let a := t.diagonalAt i
      let b := t.diagonalAt (i + 1)
      let f := t.besideAt i
      let cc := r.cosine * r.cosine
      let ss := r.sine * r.sine
      let cs := r.cosine * r.sine
      let mixed := cs * 2.0 * f
      let f' := cs * (a - b) + f * (cc - ss)
      let t := ((t.setDiagonal i ((cc * a + ss * b) - mixed)).setDiagonal (i + 1)
        ((ss * a + cc * b) + mixed)).setBeside i f'
      if i + 1 = last then t.turnBasis r i
      else
        let next := t.besideAt (i + 1)
        chase start last places f' (-r.sine * next)
          ((t.setBeside (i + 1) (next * r.cosine)).turnBasis r i)

/-- A round of rotations with the shift of the trailing block. -/
def sweep (t : Tridiagonal) (start last : Nat) : Tridiagonal :=
  let shift := trailingEigenvalue (t.diagonalAt (last - 1)) (t.diagonalAt last)
    (t.besideAt (last - 1))
  chase start last (List.range' start (last - start)) (t.diagonalAt start - shift)
    (t.besideAt start) t

def splitPair (t : Tridiagonal) (start : Nat) : Tridiagonal :=
  let d := t.diagonalAt start
  let f := t.besideAt start
  let e := t.diagonalAt (start + 1)
  match eigenvaluePair? d f f e with
  | none => t
  | some (first, second) =>
    let t := (t.setDiagonal start first).setDiagonal (start + 1) second
    match Rotation.ofRatio? unitRoundoff (first - e) f with
    | some (r, _) => t.turnBasis r.inverse start
    | none => t

def rounds : (fuel : Nat) → (start last : Nat) → Tridiagonal → Tridiagonal
  | 0, _, _, t => t
  | fuel + 1, start, last, t =>
    if start = last then t
    else
      let (t, last) :=
        if last = start + 1 then (t.splitPair start, last - 1)
        else
          let t := t.sweep start last
          (t, if t.vanishes (last - 1) then last - 1 else last)
      let (t, start, last) := t.block last
      rounds fuel start last t

def diagonalize (t : Tridiagonal) : Tridiagonal :=
  let (t, start, last) := t.block (t.diagonal.length - 1)
  rounds roundLimit start last t

end Tridiagonal

def lowerTriangle (m : Matrix Float) : List (List Float) :=
  m.columns.mapIdx fun j column => column.drop j

/-- The eigenvalues of a symmetric matrix, and the matrix of its eigenvectors. -/
def symmetricEigen (m : Matrix Float) : List Float × Matrix Float :=
  let scale := greatestMagnitude m.entries
  let columns :=
    if scale == 0 then m.lowerTriangle else m.lowerTriangle.map (List.map (· / scale))
  let t := (Tridiagonal.ofTriangle m.height columns).diagonalize
  (t.diagonal.map (· * scale), ofFn m.height m.height fun i j => (t.basis.getD j []).getD i 0)

end MatrixCalculator.Matrix
