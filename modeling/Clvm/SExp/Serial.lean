import Clvm.Bytes.Integer
import Clvm.Error.Basic

/-!
# The binary form of trees

A pair is the byte `ff`, its first part and its rest. The empty atom is `80`, a byte up to `7f` stands
for itself, and any other atom is its length and its bytes. The leading one bits of the first length byte
say how many bytes the length takes, so a reader accepts longer forms than the writer chooses.
-/

namespace Clvm.SExp

/-- Atoms are shorter than this. -/
def atomLimit : Nat := 0x400000000

/-- The length bytes in front of an atom of `n` bytes. -/
def lengthHeader (n : Nat) : Bytes :=
  if n < 0x40 then Bytes.ofNatWidth 1 (0x80 + n)
  else if n < 0x2000 then Bytes.ofNatWidth 2 (0xc000 + n)
  else if n < 0x100000 then Bytes.ofNatWidth 3 (0xe00000 + n)
  else if n < 0x8000000 then Bytes.ofNatWidth 4 (0xf0000000 + n)
  else Bytes.ofNatWidth 5 (0xf800000000 + n)

/-- The binary form of an atom. -/
def serializeAtom (b : Bytes) : Bytes :=
  match b with
  | [] => [0x80]
  | [x] => if x ≤ 0x7f then [x] else [0x81, x]
  | _ => lengthHeader b.length ++ b

/-- The binary form of a tree, in front of `tail`. -/
def serializeOnto : SExp → Bytes → Bytes
  | .atom b, tail => serializeAtom b ++ tail
  | .pair x y, tail => 0xff :: serializeOnto x (serializeOnto y tail)

/-- The binary form of a tree. -/
def serialize (t : SExp) : Bytes := serializeOnto t []

/-- The number of leading one bits of a byte. -/
def leadingOnes (x : UInt8) : Nat :=
  if x < 0x80 then 0
  else if x < 0xc0 then 1
  else if x < 0xe0 then 2
  else if x < 0xf0 then 3
  else if x < 0xf8 then 4
  else if x < 0xfc then 5
  else if x < 0xfe then 6
  else if x < 0xff then 7
  else 8

/-- The first `n` bytes and what follows them. -/
def takeBytes (n : Nat) (input : Bytes) : Except Error (Bytes × Bytes) :=
  let taken := input.take n
  if taken.length = n then .ok (taken, input.drop n) else .error .badEncoding

/-- Reads an atom whose first byte is `x`. -/
def readAtom (x : UInt8) (input : Bytes) : Except Error (Bytes × Bytes) :=
  if x = 0x80 then .ok ([], input)
  else if x ≤ 0x7f then .ok ([x], input)
  else do
    let ones := leadingOnes x
    let (more, input) ← takeBytes (ones - 1) input
    let low := x.toNat % Nat.pow 2 (7 - ones)
    let size := low * Nat.pow 256 (ones - 1) + Bytes.toNat more
    if atomLimit ≤ size then .error .blobTooLarge else takeBytes size input

/-- Reads a tree nested at most `depth` deep, and gives what follows it. -/
def readTree : Nat → Bytes → Except Error (SExp × Bytes)
  | 0, _ => .error .badEncoding
  | _ + 1, [] => .error .badEncoding
  | depth + 1, x :: input =>
    if x = 0xff then do
      let (first, input) ← readTree depth input
      let (rest, input) ← readTree depth input
      return (.pair first rest, input)
    else do
      let (b, input) ← readAtom x input
      return (.atom b, input)

/-- Reads a tree from the front of `input`. Every pair takes a byte, so no tree is nested deeper than
`input` is long. -/
def deserializeWithRest (input : Bytes) : Except Error (SExp × Bytes) :=
  readTree (input.length + 1) input

/-- Reads a tree from the front of `input`; what follows it is ignored. -/
def deserialize (input : Bytes) : Except Error SExp :=
  (·.1) <$> deserializeWithRest input

end Clvm.SExp
