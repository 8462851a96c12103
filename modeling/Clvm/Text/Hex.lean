import Clvm.SExp.Basic
import Clvm.Text.Blank

/-!
# Bytes in hexadecimal text
-/

namespace Clvm.Text

/-- The value of a hexadecimal digit, in either case. -/
def hexDigit? (c : Char) : Option Nat :=
  let n := c.toNat
  if 48 ≤ n ∧ n ≤ 57 then some (n - 48)
  else if 97 ≤ n ∧ n ≤ 102 then some (n - 87)
  else if 65 ≤ n ∧ n ≤ 70 then some (n - 55)
  else none

/-- Reads pairs of digits, with blanks before, between and after pairs. -/
def bytesOfHex? : List Char → Option Bytes
  | [] => some []
  | [c] => if isAsciiBlank c then some [] else none
  | c :: d :: more =>
    if isAsciiBlank c then bytesOfHex? (d :: more)
    else do
      let high ← hexDigit? c
      let low ← hexDigit? d
      return UInt8.ofNat (16 * high + low) :: (← bytesOfHex? more)

end Clvm.Text
