import MatrixCalculator.Text.Basic

/-!
# Separators

The characters of the expression grammar that depend on the locale.  The
canonical ones, a point for decimals and a comma between columns, are what
every pass after the first works in.
-/

namespace MatrixCalculator

structure Separators where
  decimalPoint : Char
  grouping : Char
  binary : Char
  hexadecimal : Char
  matrix : Char
  deriving DecidableEq, Repr

namespace Separators

def canonical : Separators := ⟨'.', ',', ' ', ' ', ','⟩

/-- The other separators follow from the decimal point: where it is a comma,
groups are divided by points and columns by semicolons. -/
def ofDecimalPoint (point : Char) : Separators :=
  if point = ',' then ⟨point, '.', ' ', ' ', ';'⟩ else ⟨point, ',', ' ', ' ', ','⟩

/-- Languages whose locales write a comma as the decimal point. -/
def commaLanguages : List Text :=
  ["af", "az", "be", "bg", "bs", "ca", "cs", "da", "de", "el", "es", "et", "eu", "fi", "fo",
    "fr", "gl", "hr", "hu", "hy", "id", "is", "it", "ka", "kk", "ky", "lt", "lv", "mk", "mn",
    "nb", "nl", "nn", "no", "pl", "pt", "ro", "ru", "sk", "sl", "sq", "sr", "sv", "tr", "uk",
    "uz", "vi"].map String.toList

/-- The language of a locale tag such as `de_DE.UTF-8` or `pt-BR`. -/
def languageOf (tag : Text) : Text :=
  (tag.takeWhile fun c => c ∉ ['_', '-', '.', '@']).map Char.toLower

/-- The separators of a locale; a tag of no known language has the canonical
ones. -/
def ofLocale (tag : Text) : Separators :=
  if languageOf tag ∈ commaLanguages then ofDecimalPoint ',' else canonical

def isCanonical (separators : Separators) : Bool := decide (separators = canonical)

end Separators

end MatrixCalculator
