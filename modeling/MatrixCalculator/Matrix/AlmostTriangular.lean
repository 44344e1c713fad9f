import MatrixCalculator.Matrix.Rotation

/-!
# Almost triangular matrices

A square matrix is reflected to one with a single diagonal below the main one,
and steps with a double shift are taken until each block on the diagonal has
one or two rows.  A block of two rows is split where its eigenvalues are real,
so a triangular matrix is left exactly if all eigenvalues are.
-/

namespace MatrixCalculator.Matrix

/-- A square matrix on its way to triangular form, as its rows. -/
abbrev AlmostTriangular := List (List Float)

namespace AlmostTriangular

def get (t : AlmostTriangular) (i j : Nat) : Float := (t.getD i []).getD j 0

def put (t : AlmostTriangular) (i j : Nat) (x : Float) : AlmostTriangular :=
  t.set i ((t.getD i []).set j x)

/-- Rows from `top` on, reflected in the columns from `first` on. -/
def reflectRows (r : Reflection) (top first : Nat) (t : AlmostTriangular) : AlmostTriangular :=
  let count := r.axis.length
  let segments := (List.range t.length).map fun j =>
    let segment := (List.range count).map fun i => get t (top + i) j
    if first ≤ j then r.applyDown segment else segment
  t.mapIdx fun i row =>
    if top ≤ i ∧ i < top + count then segments.map (·.getD (i - top) 0) else row

/-- Columns from `left` on, reflected in the first `rows` rows. -/
def reflectColumns (r : Reflection) (left rows : Nat) (t : AlmostTriangular) : AlmostTriangular :=
  let count := r.axis.length
  t.mapIdx fun i row =>
    if i < rows then
      row.take left ++ r.applyAcross ((row.drop left).take count) ++ row.drop (left + count)
    else row

/-- Column `j` cleared from two places below the diagonal on, with the rest of the
matrix reflected on both sides. -/
def clearColumn (t : AlmostTriangular) (j : Nat) : AlmostTriangular :=
  let (r, head) := Reflection.ofVector ((t.drop (j + 1)).map (·.getD j 0))
  let t :=
    match r with
    | some r => reflectRows r (j + 1) (j + 1) (reflectColumns r (j + 1) t.length t)
    | none => t
  t.mapIdx fun i row =>
    if i = j + 1 then row.set j head.abs else if j + 1 < i then row.set j 0 else row

/-- The form with a single diagonal below the main one. -/
def ofRows (rows : List (List Float)) : AlmostTriangular :=
  (List.range (rows.length - 1)).foldl clearColumn rows

/-- Whether the entry below a diagonal entry vanishes between its neighbours. -/
def vanishes (t : AlmostTriangular) (m : Nat) : Bool :=
  (get t (m + 1) m).abs <= unitRoundoff * ((get t (m + 1) (m + 1)).abs + (get t m m).abs)

/-- The last place below `last + 1` that still has an entry left of its diagonal
one, after entries that vanish have been cleared. -/
def trimEnd (t : AlmostTriangular) : (last : Nat) → AlmostTriangular × Nat
  | 0 => (t, 0)
  | m + 1 => if vanishes t m then trimEnd (put t (m + 1) m 0) m else (t, m + 1)

/-- The first place of the block that ends at a place. -/
def blockStart (t : AlmostTriangular) : (start : Nat) → AlmostTriangular × Nat
  | 0 => (t, 0)
  | m + 1 =>
    if get t (m + 1) m == 0 || vanishes t m then (put t (m + 1) m 0, m + 1) else blockStart t m

/-- The last block, up to a place, that is not triangular yet. -/
def block (t : AlmostTriangular) (last : Nat) : AlmostTriangular × Nat × Nat :=
  match trimEnd t last with
  | (t, 0) => (t, 0, 0)
  | (t, n + 1) =>
    let (t, start) := blockStart t n
    (t, start, n + 1)

/-- The reflections of a step along a block: each clears what the one before it
has left below the diagonal next to the main one. -/
def chase (start last : Nat) :
    (places : List Nat) → (axis : List Float) → AlmostTriangular → AlmostTriangular
  | [], axis, t =>
    let m := last - 1
    let (r, head) := Reflection.ofVector (axis.take 2)
    match r with
    | none => t
    | some r =>
      let t := put (put t m (m - 1) head) last (m - 1) 0
      reflectColumns r.plain m (last + 1) (reflectRows r.plain m m t)
  | k :: places, axis, t =>
    let (r, head) := Reflection.ofVector axis
    let t :=
      match r with
      | none => t
      | some r =>
        let t :=
          if start < k then
            put (put (put t k (k - 1) head) (k + 1) (k - 1) 0) (k + 2) (k - 1) 0
          else t
        reflectColumns r.plain k (min (k + 4) (last + 1)) (reflectRows r.plain k k t)
    let third := if k + 2 < last then get t (k + 3) k else 0
    chase start last places [get t (k + 1) k, get t (k + 2) k, third] t

/-- A step with the two shifts of the trailing block. -/
def sweep (t : AlmostTriangular) (start last : Nat) : AlmostTriangular :=
  let m := last - 1
  let h11 := get t start start
  let h12 := get t start (start + 1)
  let h21 := get t (start + 1) start
  let h22 := get t (start + 1) (start + 1)
  let h32 := get t (start + 2) (start + 1)
  let trace := get t last last + get t m m
  let determinant := get t last last * get t m m - get t last m * get t m last
  chase start last (List.range' start (m - start))
    [h11 * h11 + h12 * h21 - trace * h11 + determinant, h21 * (h11 + h22 - trace), h21 * h32] t

/-- The rotation that makes a block of two rows triangular, if it has real
eigenvalues and is not triangular yet. -/
def splittingRotation? (a b c d : Float) : Option Rotation :=
  if c == 0 then none
  else
    match eigenvaluePair? a b c d with
    | none => none
    | some (first, second) =>
      let x := first - d
      let y := second - d
      ((Rotation.ofRatio? 0 (if y.abs < x.abs then x else y) c).map Prod.fst).getD Rotation.identity

/-- A block of two rows made triangular where its eigenvalues are real. -/
def splitPair (t : AlmostTriangular) (start : Nat) : AlmostTriangular :=
  let last := start + 1
  match splittingRotation? (get t start start) (get t start last) (get t last start)
      (get t last last) with
  | none => t
  | some r =>
    let back := r.inverse
    let upper := t.getD start []
    let lower := t.getD last []
    let turned := back.turnVectors (upper.drop start) (lower.drop start)
    let t := (t.set start (upper.take start ++ turned.1)).set last (lower.take start ++ turned.2)
    let t := t.mapIdx fun i row =>
      if i ≤ last then
        let pair := back.turn (row.getD start 0) (row.getD last 0)
        (row.set start pair.1).set last pair.2
      else row
    put t last start 0

/-- Steps until no block of more than two rows is left. -/
def rounds : (fuel : Nat) → (start last : Nat) → AlmostTriangular → AlmostTriangular
  | 0, _, _, t => t
  | fuel + 1, start, last, t =>
    if start = last then t
    else if last = start + 1 then
      let t := splitPair t start
      if 2 < last then
        let (t, start, last) := block t (last - 2)
        rounds fuel start last t
      else t
    else
      let (t, start, last) := block (sweep t start last) last
      rounds fuel start last t

/-- The diagonal, if nothing is left below it. -/
def triangularDiagonal? (t : AlmostTriangular) : Option (List Float) :=
  if (List.range (t.length - 1)).all fun m => get t (m + 1) m == 0 then
    some (t.mapIdx fun i row => row.getD i 0)
  else none

end AlmostTriangular

end MatrixCalculator.Matrix
