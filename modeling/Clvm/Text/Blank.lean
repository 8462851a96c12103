/-!
# Blank characters

The characters that separate tokens: the white space of Unicode together with the four ASCII separators.
-/

namespace Clvm.Text

/-- Blank characters of source text. -/
def isBlank (c : Char) : Bool :=
  let n := c.toNat
  (0x09 ≤ n && n ≤ 0x0d) || (0x1c ≤ n && n ≤ 0x20) || n == 0x85 || n == 0xa0 || n == 0x1680 ||
  (0x2000 ≤ n && n ≤ 0x200a) || n == 0x2028 || n == 0x2029 || n == 0x202f || n == 0x205f || n == 0x3000

/-- The blanks of ASCII that end a line or move along it. -/
def isAsciiBlank (c : Char) : Bool :=
  let n := c.toNat
  n == 0x20 || (0x09 ≤ n && n ≤ 0x0d)

/-- The blanks that may stand around a number: all but the four ASCII separators. -/
def isMargin (c : Char) : Bool := isBlank c && !(0x1c ≤ c.toNat && c.toNat ≤ 0x1f)

/-- The text without the characters of a class at either end. -/
def trimBy (p : Char → Bool) (cs : List Char) : List Char :=
  ((cs.dropWhile p).reverse.dropWhile p).reverse

/-- The text without blanks at either end. -/
def trim (cs : List Char) : List Char := trimBy isBlank cs

end Clvm.Text
