import MatrixCalculator.Matrix.Basic

/-!
# Determinant and inverse

Up to three rows the determinant is expanded; from four on the rows are
eliminated with the entry of greatest magnitude as the pivot, and the
determinant is the product of the pivots with one change of sign for every
exchange of rows.  The inverse is the adjugate over the determinant up to four
rows, and comes from elimination beyond.
-/

namespace MatrixCalculator.Matrix

/-- The place of the first number of greatest magnitude behind the first `place`
ones, of which the greatest one so far is known. -/
def pivotFrom (best : Nat) (greatest : Float) (place : Nat) : List Float → Nat
  | [] => best
  | x :: xs =>
    if greatest < x.abs then pivotFrom place x.abs (place + 1) xs
    else pivotFrom best greatest (place + 1) xs

def pivotPlace : List Float → Nat
  | [] => 0
  | x :: xs => pivotFrom 0 x.abs 1 xs

def exchange {α : Type} (i j : Nat) (xs : List α) : List α :=
  match xs[i]?, xs[j]? with
  | some a, some b => (xs.set i b).set j a
  | _, _ => xs

/-- One row without the share of the pivot row that clears its first entry. -/
def eliminate (inverse : Float) (pivotRow row : List Float) : List Float :=
  let share := row.headD 0 * inverse
  List.zipWith (fun pivot x => -pivot * share + x) pivotRow row.tail

/-- The diagonal left by elimination of `steps` columns, and whether the number
of exchanges is odd.  A column of zeros is passed over. -/
def pivots : (steps : Nat) → List (List Float) → List Float × Bool
  | 0, _ => ([], false)
  | steps + 1, rows =>
    let place := pivotPlace (rows.map (·.headD 0))
    match exchange 0 place rows with
    | [] => ([], false)
    | first :: others =>
      let pivot := first.headD 0
      if pivot == 0 then
        let (rest, odd) := pivots steps (others.map List.tail)
        (pivot :: rest, odd)
      else
        let (rest, odd) := pivots steps (others.map (eliminate (1.0 / pivot) first.tail))
        (pivot :: rest, odd != (place != 0))

def determinant (m : Matrix Float) : Float :=
  let a := m.entry
  match m.height with
  | 0 => 1
  | 1 => a 0 0
  | 2 => a 0 0 * a 1 1 - a 1 0 * a 0 1
  | 3 =>
    let minor1 := a 1 1 * a 2 2 - a 2 1 * a 1 2
    let minor2 := a 1 0 * a 2 2 - a 2 0 * a 1 2
    let minor3 := a 1 0 * a 2 1 - a 2 0 * a 1 1
    a 0 0 * minor1 - a 0 1 * minor2 + a 0 2 * minor3
  | n =>
    let (diagonal, odd) := pivots n m.rows
    diagonal.foldl (· * ·) 1.0 * if odd then -1.0 else 1.0

/-- The right sides of a system of `steps` equations turned into its solutions:
the unknowns are eliminated with the greatest pivot each and found from the last
one on.  There is no solution if a pivot is zero. -/
def solveSystem : (steps : Nat) → List (List Float) → Option (List (List Float))
  | 0, _ => some []
  | steps + 1, system =>
    let place := pivotPlace (system.map (·.headD 0))
    match exchange 0 place system with
    | [] => some []
    | first :: others =>
      let pivot := first.headD 0
      if pivot == 0 then none
      else do
        let solved ← solveSystem steps (others.map (eliminate (1.0 / pivot) first.tail))
        let right := (List.zip (first.tail.take steps) solved).foldr
          (fun (coefficient, solution) right =>
            List.zipWith (fun x y => -x * coefficient + y) solution right)
          (first.tail.drop steps)
        return right.map (· / pivot) :: solved

/-- The inverse by elimination on the rows beside those of the identity. -/
def inverseByElimination (m : Matrix Float) : Option (Matrix Float) :=
  let n := m.height
  (solveSystem n (List.zipWith (· ++ ·) m.rows (identity n).rows)).map (ofRows n)

/-- The place `n` of a sequence without its place `omitted`. -/
def skip (omitted n : Nat) : Nat := if n < omitted then n else n + 1

/-- The determinant of a matrix of four rows without row `j` and column `i`, with
the sign of that place. -/
def cofactor (a : Nat → Nat → Float) (i j : Nat) : Float :=
  let b (row column : Nat) := a (skip j row) (skip i column)
  let sign := if (i + j) % 2 = 0 then 1.0 else -1.0
  sign * b 0 0 * b 1 1 * b 2 2 - sign * b 0 0 * b 2 1 * b 1 2 - sign * b 0 1 * b 1 0 * b 2 2 +
    sign * b 0 1 * b 2 0 * b 1 2 + sign * b 0 2 * b 1 0 * b 2 1 - sign * b 0 2 * b 2 0 * b 1 1

def inverseByCofactors (m : Matrix Float) : Option (Matrix Float) :=
  let c := cofactor m.entry
  let d := m.entry 0 0 * c 0 0 + m.entry 1 0 * c 0 1 + m.entry 2 0 * c 0 2 + m.entry 3 0 * c 0 3
  if d == 0 then none else some (ofFn 4 4 fun i j => c i j * (1.0 / d))

/-- The inverse of a square matrix, unless its determinant is zero. -/
def inverse? (m : Matrix Float) : Option (Matrix Float) :=
  let a := m.entry
  match m.height with
  | 0 => some m
  | 1 => if a 0 0 == 0 then none else some (ofRows 1 [[1.0 / a 0 0]])
  | 2 =>
    let d := m.determinant
    if d == 0 then none
    else some (ofRows 2 [[a 1 1 / d, -a 0 1 / d], [-a 1 0 / d, a 0 0 / d]])
  | 3 =>
    let d := m.determinant
    if d == 0 then none
    else
      let minor (i j k l : Nat) : Float := a i j * a k l - a k j * a i l
      some (ofRows 3
        [[minor 1 1 2 2 / d, (a 0 2 * a 2 1 - a 2 2 * a 0 1) / d, minor 0 1 1 2 / d],
          [-minor 1 0 2 2 / d, minor 0 0 2 2 / d, (a 0 2 * a 1 0 - a 1 2 * a 0 0) / d],
          [minor 1 0 2 1 / d, (a 0 1 * a 2 0 - a 2 1 * a 0 0) / d, minor 0 0 1 1 / d]])
  | 4 => m.inverseByCofactors
  | _ => m.inverseByElimination

end MatrixCalculator.Matrix
