import Clvm.SExp.Basic

/-!
# Integers as byte strings

Integers are big-endian two's complement. Any length can be read; what is written is the shortest
byte string that reads back, and zero is the empty one.
-/

namespace Clvm

/-- The number of binary digits of a natural number; zero has none. -/
def bitLength (n : Nat) : Nat := if n = 0 then 0 else n.log2 + 1

/-- The number of bytes that hold the binary digits of `n`. -/
def byteLength (n : Nat) : Nat := (bitLength n + 7) / 8

namespace Bytes

/-- The unsigned big-endian value. -/
def toNat (b : Bytes) : Nat := b.foldl (fun acc x => acc * 256 + x.toNat) 0

/-- The top bit of the first byte is set. -/
def isNegative : Bytes → Bool
  | [] => false
  | x :: _ => 128 ≤ x

/-- The signed big-endian value. -/
def toInt (b : Bytes) : Int :=
  if isNegative b then (toNat b : Int) - (Nat.pow 256 b.length : Nat) else toNat b

/-- The last `width` base 256 digits of `n`, put in front of `tail`. -/
def digits (n : Nat) : Nat → Bytes → Bytes
  | 0, tail => tail
  | width + 1, tail => digits (n / 256) width (UInt8.ofNat (n % 256) :: tail)

/-- `n` in `width` big-endian bytes. -/
def ofNatWidth (width n : Nat) : Bytes := digits n width []

/-- The shortest unsigned big-endian form; zero is empty. -/
def ofNat (n : Nat) : Bytes := ofNatWidth (byteLength n) n

/-- The number of bytes of the shortest two's complement form; zero has none. -/
def intWidth : Int → Nat
  | .ofNat 0 => 0
  | .ofNat (n + 1) => bitLength (n + 1) / 8 + 1
  | .negSucc n => bitLength n / 8 + 1

/-- `i` in `width` bytes of two's complement. -/
def ofIntWidth (width : Nat) (i : Int) : Bytes :=
  ofNatWidth width (i % (Nat.pow 256 width : Nat)).toNat

/-- The shortest two's complement form. -/
def ofInt (i : Int) : Bytes := ofIntWidth (intWidth i) i

/-- Lower-case hexadecimal text. -/
def hexDigit (n : Nat) : Char := Char.ofNat (if n < 10 then 48 + n else 87 + n)

/-- Two hexadecimal digits a byte. -/
def toHex (b : Bytes) : List Char :=
  b.flatMap fun x => [hexDigit (x.toNat / 16), hexDigit (x.toNat % 16)]

/-- Lexicographic order on bytes. -/
def lt : Bytes → Bytes → Bool
  | [], [] => false
  | [], _ :: _ => true
  | _ :: _, [] => false
  | x :: xs, y :: ys => x < y || (x == y && lt xs ys)

end Bytes

namespace SExp

/-- The atom of an integer. -/
def ofInt (i : Int) : SExp := .atom (Bytes.ofInt i)

/-- The atom of a natural number. -/
def ofNat (n : Nat) : SExp := ofInt n

end SExp
end Clvm
