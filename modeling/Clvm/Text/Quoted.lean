import Clvm.Bytes.Integer

/-!
# Text in double quotes

The quoted form of a text in ASCII: quotes and backslashes are escaped, the usual control characters are
written by letter, and every other character outside printable ASCII by four hexadecimal digits for each of
its UTF-16 units.
-/

namespace Clvm.Text

/-- Four hexadecimal digits of a UTF-16 unit. -/
def unitEscape (n : Nat) : List Char :=
  "\\u".toList ++ Bytes.toHex (Bytes.ofNatWidth 2 n)

/-- One character inside quotes. -/
def quotedChar (c : Char) : List Char :=
  let n := c.toNat
  if c = '"' then "\\\"".toList
  else if c = '\\' then "\\\\".toList
  else if c = '\n' then "\\n".toList
  else if c = '\r' then "\\r".toList
  else if c = '\t' then "\\t".toList
  else if n = 0x08 then "\\b".toList
  else if n = 0x0c then "\\f".toList
  else if 0x20 ≤ n ∧ n ≤ 0x7e then [c]
  else if n < 0x10000 then unitEscape n
  else unitEscape (0xd800 + (n - 0x10000) / 0x400) ++ unitEscape (0xdc00 + (n - 0x10000) % 0x400)

/-- A text in double quotes. -/
def quoted (cs : List Char) : List Char := '"' :: cs.flatMap quotedChar ++ ['"']

end Clvm.Text
