import MatrixCalculator.Text.Basic

/-!
# White space

The characters with the Unicode property `White_Space`.  They carry no meaning
in an expression: two numerals may be written with blanks between them, and a
line made of blanks alone asks for nothing.
-/

namespace MatrixCalculator.Text

/-- The code points with the property `White_Space`. -/
def isBlank (c : Char) : Bool :=
  let code := c.toNat
  (0x09 ≤ code && code ≤ 0x0D) || code == 0x20 || code == 0x85 || code == 0xA0 ||
    code == 0x1680 || (0x2000 ≤ code && code ≤ 0x200A) || code == 0x2028 ||
    code == 0x2029 || code == 0x202F || code == 0x205F || code == 0x3000

end MatrixCalculator.Text
