import MatrixCalculator.Numeral.Double

/-!
# Products added to a sum

Adding a product to a sum of doubles takes two roundings if the product is
rounded before it is added, and one if it is not.  `MulAdd` is the second way:
for doubles the exact value is rounded once, and for a type without rounding it
is the product and the sum.
-/

namespace MatrixCalculator

/-- A product added to a sum in one operation. -/
class MulAdd (α : Type) where
  mulAdd : (x y sum : α) → α

instance (priority := low) {α : Type} [Mul α] [Add α] : MulAdd α :=
  ⟨fun x y sum => sum + x * y⟩

/-- The sum of a double and a product, rounded once.  An exact zero and factors
that are not finite follow the rules of the two operations; a sum that is not
finite stays as it is next to finite factors. -/
def Numeral.mulAdd (x y sum : Float) : Float :=
  if x.isFinite ∧ y.isFinite then
    if sum.isFinite then
      let exact := Numeral.value x * Numeral.value y + Numeral.value sum
      if exact = 0 then sum + x * y else Numeral.nearest exact
    else sum
  else sum + x * y

instance : MulAdd Float := ⟨Numeral.mulAdd⟩

end MatrixCalculator
