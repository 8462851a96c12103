import Clvm.Bytes.Integer

/-!
# SHA-256

The hash of a byte string: padding to whole blocks of sixteen words, and one compression a block.
-/

namespace Clvm.Sha256

/-- The first 32 bits of the fractional parts of the cube roots of the first 64 primes. -/
def roundConstants : List UInt32 :=
  [0x428a2f98, 0x71374491, 0xb5c0fbcf, 0xe9b5dba5, 0x3956c25b, 0x59f111f1, 0x923f82a4, 0xab1c5ed5,
   0xd807aa98, 0x12835b01, 0x243185be, 0x550c7dc3, 0x72be5d74, 0x80deb1fe, 0x9bdc06a7, 0xc19bf174,
   0xe49b69c1, 0xefbe4786, 0x0fc19dc6, 0x240ca1cc, 0x2de92c6f, 0x4a7484aa, 0x5cb0a9dc, 0x76f988da,
   0x983e5152, 0xa831c66d, 0xb00327c8, 0xbf597fc7, 0xc6e00bf3, 0xd5a79147, 0x06ca6351, 0x14292967,
   0x27b70a85, 0x2e1b2138, 0x4d2c6dfc, 0x53380d13, 0x650a7354, 0x766a0abb, 0x81c2c92e, 0x92722c85,
   0xa2bfe8a1, 0xa81a664b, 0xc24b8b70, 0xc76c51a3, 0xd192e819, 0xd6990624, 0xf40e3585, 0x106aa070,
   0x19a4c116, 0x1e376c08, 0x2748774c, 0x34b0bcb5, 0x391c0cb3, 0x4ed8aa4a, 0x5b9cca4f, 0x682e6ff3,
   0x748f82ee, 0x78a5636f, 0x84c87814, 0x8cc70208, 0x90befffa, 0xa4506ceb, 0xbef9a3f7, 0xc67178f2]

/-- The eight words that a compression updates. -/
structure Chain where
  a : UInt32
  b : UInt32
  c : UInt32
  d : UInt32
  e : UInt32
  f : UInt32
  g : UInt32
  h : UInt32
deriving DecidableEq, Repr

/-- The first 32 bits of the fractional parts of the square roots of the first 8 primes. -/
def Chain.initial : Chain :=
  ⟨0x6a09e667, 0xbb67ae85, 0x3c6ef372, 0xa54ff53a, 0x510e527f, 0x9b05688c, 0x1f83d9ab, 0x5be0cd19⟩

def Chain.add (s t : Chain) : Chain :=
  ⟨s.a + t.a, s.b + t.b, s.c + t.c, s.d + t.d, s.e + t.e, s.f + t.f, s.g + t.g, s.h + t.h⟩

def Chain.words (s : Chain) : List UInt32 := [s.a, s.b, s.c, s.d, s.e, s.f, s.g, s.h]

def rotateRight (x n : UInt32) : UInt32 := (x >>> n) ||| (x <<< (32 - n))

/-- One round, with a schedule word and a round constant. -/
def round (s : Chain) (w k : UInt32) : Chain :=
  let s1 := rotateRight s.e 6 ^^^ rotateRight s.e 11 ^^^ rotateRight s.e 25
  let choice := (s.e &&& s.f) ^^^ (~~~s.e &&& s.g)
  let t1 := s.h + s1 + choice + k + w
  let s0 := rotateRight s.a 2 ^^^ rotateRight s.a 13 ^^^ rotateRight s.a 22
  let majority := (s.a &&& s.b) ^^^ (s.a &&& s.c) ^^^ (s.b &&& s.c)
  ⟨t1 + (s0 + majority), s.a, s.b, s.c, s.d + t1, s.e, s.f, s.g⟩

/-- The next schedule word, from the sixteen before it. -/
def nextWord (w : Array UInt32) : UInt32 :=
  let n := w.size
  let x := w.getD (n - 15) 0
  let y := w.getD (n - 2) 0
  let s0 := rotateRight x 7 ^^^ rotateRight x 18 ^^^ (x >>> 3)
  let s1 := rotateRight y 17 ^^^ rotateRight y 19 ^^^ (y >>> 10)
  w.getD (n - 16) 0 + s0 + w.getD (n - 7) 0 + s1

/-- A block's sixteen words followed by `n` more. -/
def extend : Nat → Array UInt32 → Array UInt32
  | 0, w => w
  | n + 1, w => extend n (w.push (nextWord w))

/-- Runs the rounds over a schedule. -/
def rounds : List UInt32 → List UInt32 → Chain → Chain
  | w :: ws, k :: ks, s => rounds ws ks (round s w k)
  | _, _, s => s

/-- Compresses one block of sixteen words into the chain. -/
def compress (s : Chain) (block : List UInt32) : Chain :=
  s.add (rounds (extend 48 block.toArray).toList roundConstants s)

/-- Bytes as big-endian words; a rest of fewer than four bytes is dropped. -/
def toWords : Bytes → List UInt32
  | a :: b :: c :: d :: rest =>
    ((a.toUInt32 <<< 24) ||| (b.toUInt32 <<< 16) ||| (c.toUInt32 <<< 8) ||| d.toUInt32) :: toWords rest
  | _ => []

/-- A one bit, zeros up to the last eight bytes of a block, and the length in bits. -/
def padding (size : Nat) : Bytes :=
  0x80 :: (List.replicate ((119 - size % 64) % 64) 0 ++ Bytes.ofNatWidth 8 (size * 8))

/-- Compresses `n` blocks. -/
def blocks : Nat → List UInt32 → Chain → Chain
  | 0, _, s => s
  | n + 1, ws, s => blocks n (ws.drop 16) (compress s (ws.take 16))

def wordBytes (w : UInt32) : Bytes :=
  [(w >>> 24).toUInt8, (w >>> 16).toUInt8, (w >>> 8).toUInt8, w.toUInt8]

end Clvm.Sha256

namespace Clvm

/-- The SHA-256 hash, 32 bytes. -/
def sha256 (message : Bytes) : Bytes :=
  let ws := Sha256.toWords (message ++ Sha256.padding message.length)
  (Sha256.blocks (ws.length / 16) ws .initial).words.flatMap Sha256.wordBytes

namespace SExp

/-- The hash of a tree: leaves and pairs are told apart by a byte in front. -/
def treeHash : SExp → Bytes
  | .atom b => sha256 (1 :: b)
  | .pair x y => sha256 (2 :: (treeHash x ++ treeHash y))

end SExp
end Clvm
