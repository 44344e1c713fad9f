import MatrixCalculator.Matrix.Rotation
import MatrixCalculator.Numeral.Root

/-!
# Bidiagonal matrices

A matrix that is at least as high as it is wide is reflected to one with entries
on the diagonal and right beside it only, and that one is rotated until nothing
is left beside the diagonal.  Both sides of every step are collected in a left
and a right basis, so that the product of the three stays the matrix.

Entries within a few units of the last place of their neighbours count as zero.
The rounds of rotations go on until all entries beside the diagonal do; a bound
on the rounds stands in for convergence.
-/

namespace MatrixCalculator.Matrix

/-- A product of a left basis, a bidiagonal matrix and a right basis.  The left
vectors are columns and the right vectors rows. -/
structure Bidiagonal where
  diagonal : List Float
  beside : List Float
  left : List (List Float)
  right : List (List Float)

namespace Bidiagonal

/-- The bidiagonal form of the matrix with `columns`, of which there are at most
as many as each has entries.  The first column is cleared below the diagonal,
then the first row of the others is cleared right of its first entry, and the
rest is treated in the same way.  Columns are reflected by the product `down` and
rows by the product `across`. -/
def ofColumns (down across : List Float → List Float → Float) :
    (width height : Nat) → (columns : List (List Float)) → Bidiagonal
  | 0, _, _ => ⟨[], [], [], []⟩
  | width + 1, height, columns =>
    let (r, head) := Reflection.ofVector (columns.headD [])
    let others := reflectAll down r columns.tail
    let below := others.map List.tail
    if width = 0 then
      ⟨[head.abs], [], reflectAll down r (extendBasis height []), [[1.0]]⟩
    else
      let (s, beside) := Reflection.ofVector (others.map (·.headD 0))
      let rows := (List.range (height - 1)).map fun i => below.map (·.getD i 0)
      let remaining := reflectAll across s rows
      let rest := ofColumns down across width (height - 1)
        ((List.range width).map fun j => remaining.map (·.getD j 0))
      ⟨head.abs :: rest.diagonal, beside.abs :: rest.beside,
        reflectAll down r (extendBasis height rest.left),
        extendBasis (width + 1) (reflectAll across s rest.right)⟩

def diagonalAt (b : Bidiagonal) (i : Nat) : Float := b.diagonal.getD i 0

/-- The entry right of the diagonal one at a place. -/
def besideAt (b : Bidiagonal) (i : Nat) : Float := b.beside.getD i 0

def setDiagonal (b : Bidiagonal) (i : Nat) (x : Float) : Bidiagonal :=
  { b with diagonal := b.diagonal.set i x }

def setBeside (b : Bidiagonal) (i : Nat) (x : Float) : Bidiagonal :=
  { b with beside := b.beside.set i x }

def turnLeft (b : Bidiagonal) (r : Rotation) (i j : Nat) : Bidiagonal :=
  { b with left := r.turnAt i j b.left }

def turnRight (b : Bidiagonal) (r : Rotation) (i j : Nat) : Bidiagonal :=
  { b with right := r.turnAt i j b.right }

/-- Magnitudes up to this one count as zero beside an entry of one. -/
def tolerance : Float := unitRoundoff * 5.0

/-- Moves the entry `x` right of a zero on the diagonal in row `i` out to the right, past the
diagonal entry `y` of each of the given columns, until it is gone. -/
def clearRow (i last : Nat) : (columns : List Nat) → (x y : Float) → Bidiagonal → Bidiagonal
  | [], _, _, b => b
  | k :: columns, x, y, b =>
    match Rotation.clearFirst? x y with
    | none => b
    | some (r, length) =>
      let b := (b.setDiagonal (k + 1) length).turnLeft r i (k + 1)
      if k + 1 = last then b
      else
        let next := b.besideAt (k + 1)
        clearRow i last columns (-r.sine * next) (b.diagonalAt (k + 2))
          (b.setBeside (k + 1) (next * r.cosine))

/-- Clears row `i` right of its diagonal entry, which is zero, up to a column. -/
def clearRowFrom (b : Bidiagonal) (i last : Nat) : Bidiagonal :=
  clearRow i last (List.range' i (last - i)) (b.besideAt i) (b.diagonalAt (i + 1))
    (b.setBeside i 0)

/-- Moves the entry `y` above a zero on the diagonal in column `i + 1` out to the
top, past the diagonal entry `x` of each of `rows` rows, until it is gone. -/
def clearColumn (i : Nat) : (rows : Nat) → (x y : Float) → Bidiagonal → Bidiagonal
  | 0, _, _, b => b
  | k + 1, x, y, b =>
    match Rotation.clearSecond? x y with
    | none => b
    | some (r, length) =>
      let b := (b.setDiagonal k length).turnRight r k (i + 1)
      match k with
      | 0 => b
      | above + 1 =>
        let next := b.besideAt above
        clearColumn i (above + 1) (b.diagonalAt above) (r.sine * next)
          (b.setBeside above (next * r.cosine))

/-- Clears the column right of diagonal entry `i` above its own diagonal entry,
which is zero. -/
def clearColumnFrom (b : Bidiagonal) (i : Nat) : Bidiagonal :=
  clearColumn i (i + 1) (b.diagonalAt i) (b.besideAt i) (b.setBeside i 0)

/-- Whether the entry beside a diagonal entry vanishes between its neighbours. -/
def vanishes (b : Bidiagonal) (i : Nat) : Bool :=
  (b.besideAt i).abs <= tolerance * ((b.diagonalAt (i + 1)).abs + (b.diagonalAt i).abs)

/-- A diagonal entry that counts as zero, set to zero and with its row cleared up
to a column, and its column cleared as well. -/
def dropDiagonal (b : Bidiagonal) (i last : Nat) : Bidiagonal :=
  let b := (b.setDiagonal i 0).clearRowFrom i last
  if i = 0 then b else b.clearColumnFrom (i - 1)

/-- The last place below `last + 1` that still has an entry beside the diagonal
in front of it, after entries that vanish have been cleared. -/
def trimEnd (b : Bidiagonal) : (last : Nat) → Bidiagonal × Nat
  | 0 => (b, 0)
  | m + 1 =>
    if b.besideAt m == 0 || b.vanishes m then trimEnd (b.setBeside m 0) m
    else if (b.diagonalAt m).abs <= tolerance then trimEnd (b.dropDiagonal m (m + 1)) m
    else if (b.diagonalAt (m + 1)).abs <= tolerance then
      trimEnd ((b.setDiagonal (m + 1) 0).clearColumnFrom m) m
    else (b, m + 1)

/-- The first place of the block that ends at `last` and has no zero beside its
diagonal. -/
def blockStart (b : Bidiagonal) (last : Nat) : (start : Nat) → Bidiagonal × Nat
  | 0 => (b, 0)
  | m + 1 =>
    if b.vanishes m then (b.setBeside m 0, m + 1)
    else if (b.diagonalAt m).abs <= tolerance then (b.dropDiagonal m last, m + 1)
    else blockStart b last m

/-- The last block, up to a place, that is not diagonal yet. -/
def block (b : Bidiagonal) (last : Nat) : Bidiagonal × Nat × Nat :=
  match b.trimEnd last with
  | (b, 0) => (b, 0, 0)
  | (b, n + 1) =>
    let (b, start) := b.blockStart (n + 1) n
    (b, start, n + 1)

/-- One round of rotations along a block: each pair clears the entry that the one
before it has left outside the two diagonals. -/
def chase (start last : Nat) : (places : List Nat) → (x y : Float) → Bidiagonal → Bidiagonal
  | [], _, _, b => b
  | k :: places, x, y, b =>
    match Rotation.clearSecond? x y with
    | none => b
    | some (r, length) =>
      let b := if start < k then b.setBeside (k - 1) length else b
      let next := if k + 1 = last then 0 else b.besideAt (k + 1)
      let (a, f) := r.turn (b.diagonalAt k) (b.besideAt k)
      let (below, d) := r.turn 0 (b.diagonalAt (k + 1))
      let (q, head) := (Rotation.clearSecond? a below).getD (Rotation.identity, a)
      let (f', d') := q.turn f d
      let (outside, next') := q.turn 0 next
      let b := ((b.setDiagonal k head).setDiagonal (k + 1) d').setBeside k f'
      let b := if k + 1 = last then b else b.setBeside (k + 1) next'
      chase start last places f' outside ((b.turnRight r k (k + 1)).turnLeft q k (k + 1))

/-- A round of rotations with the shift of the trailing block. -/
def sweep (b : Bidiagonal) (start last : Nat) : Bidiagonal :=
  let m := last - 1
  let corner := b.diagonalAt last
  let between := b.besideAt m
  let shift := trailingEigenvalue
    (b.diagonalAt m * b.diagonalAt m + b.besideAt (m - 1) * b.besideAt (m - 1))
    (corner * corner + between * between) (b.diagonalAt m * between)
  chase start last (List.range' start (last - start))
    (b.diagonalAt start * b.diagonalAt start - shift) (b.diagonalAt start * b.besideAt start) b

/-- A block of two places, made diagonal in one step. -/
def splitPair (b : Bidiagonal) (start : Nat) : Bidiagonal :=
  let d := b.diagonalAt start
  let f := b.besideAt start
  let e := b.diagonalAt (start + 1)
  let spread := Numeral.hypotenuse (d + e) f + Numeral.hypotenuse (d - e) f
  let first := d * e * 2.0 / spread
  let second := 0.5 * spread
  let (r, sign) := (Rotation.ofRatio? 0 (d * f) (first * first - d * d)).getD (.identity, 0)
  let first := first * sign
  let second := second * sign
  let (q, sign) := (Rotation.ofRatio? 0 ((d * r.cosine + f * r.sine) / first)
    (e * r.sine / first)).getD (.identity, 0)
  let b := ((b.setDiagonal start (first * sign)).setDiagonal (start + 1) (second * sign)).setBeside
    start 0
  (b.turnLeft q.inverse start (start + 1)).turnRight r.inverse start (start + 1)

def rounds : (fuel : Nat) → (start last : Nat) → Bidiagonal → Bidiagonal
  | 0, _, _, b => b
  | fuel + 1, start, last, b =>
    if start = last then b
    else
      let (b, last) :=
        if last = start + 1 then (b.splitPair start, last - 1) else (b.sweep start last, last)
      let (b, start, last) := b.block last
      rounds fuel start last b

def diagonalize (b : Bidiagonal) : Bidiagonal :=
  let (b, start, last) := b.block (b.diagonal.length - 1)
  rounds roundLimit start last b

end Bidiagonal

end MatrixCalculator.Matrix
