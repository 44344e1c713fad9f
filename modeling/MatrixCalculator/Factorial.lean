import MatrixCalculator.Fault

/-!
# Factorials

The factorial of a whole number is exact as long as it fits in 128 bits, a
running product of doubles up to the last one that is finite, and a fault
beyond.
-/

namespace MatrixCalculator.Factorial

def product : Nat → Nat
  | 0 => 1
  | n + 1 => (n + 1) * product n

/-- The last number whose factorial is below `2 ^ 128`. -/
def lastExact : Nat := 34

/-- The last number whose factorial is a finite double. -/
def lastFinite : Nat := 170

/-- The exact factorial, if it fits in 128 bits. -/
def exactValue? (n : Nat) : Option Nat := if n ≤ lastExact then some (product n) else none

/-- The factorial by one rounded product after another. -/
def rounded (n : Nat) : Float :=
  (List.range' 2 (n - 1)).foldl (fun value factor => value * Float.ofNat factor) 1.0

def ofNat (n : Nat) : Except Fault Float :=
  match exactValue? n with
  | some whole => .ok (Numeral.nearest (whole : Rat))
  | none =>
    if lastFinite < n then .error (.factorialOverflow (Numeral.digitsOf n)) else .ok (rounded n)

/-- The factorial as text, with all its digits whenever it is exact. -/
def write (n : Nat) : Except Fault Text :=
  match exactValue? n with
  | some whole => .ok (Numeral.digitsOf whole)
  | none => Numeral.write <$> ofNat n

end MatrixCalculator.Factorial
