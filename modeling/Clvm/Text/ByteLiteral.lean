import Clvm.Bytes.Integer

/-!
# Byte strings as literals

A byte string between quotes with a `b` in front. The quotes are single, unless the bytes hold a single
quote and no double one. The backslash and the quote that is used are escaped, tabs and line ends are
written by letter, and any other byte outside printable ASCII by its two hexadecimal digits.
-/

namespace Clvm.Text

/-- One byte of a literal. -/
def literalByte (quote x : UInt8) : List Char :=
  if x = quote ∨ x = 0x5c then ['\\', Char.ofNat x.toNat]
  else if x = 0x09 then "\\t".toList
  else if x = 0x0a then "\\n".toList
  else if x = 0x0d then "\\r".toList
  else if 0x20 ≤ x ∧ x ≤ 0x7e then [Char.ofNat x.toNat]
  else "\\x".toList ++ Bytes.toHex [x]

/-- A byte string as a literal. -/
def byteLiteral (b : Bytes) : List Char :=
  let quote : UInt8 := if b.contains 0x27 && !b.contains 0x22 then 0x22 else 0x27
  'b' :: Char.ofNat quote.toNat :: b.flatMap (literalByte quote) ++ [Char.ofNat quote.toNat]

end Clvm.Text
