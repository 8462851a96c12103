import Clvm.Random.Draw

/-!
# The Mersenne twister

The generator of period 2^19937 - 1 on 624 words. A number of any size is a seed; its sign does not count.
-/

namespace Clvm.Random

structure Twister where
  words : Array UInt32
  /-- How many of the words have been given out. -/
  used : Nat
deriving DecidableEq, Repr

namespace Twister

def size : Nat := 624

/-- A word with its highest bits mixed into its lowest. -/
def fold (x : UInt32) : UInt32 := x ^^^ (x >>> 30)

/-- The words that grow from a first one. -/
def grow (first : UInt32) : Array UInt32 :=
  (List.range (size - 1)).foldl
    (fun ws i => ws.push (1812433253 * fold (ws.getD i 0) + UInt32.ofNat (i + 1))) #[first]

/-- Replaces the word that step `t` of seeding is about. The words after the first take turns; the last one is
copied to the first place. -/
def replace (ws : Array UInt32) (t : Nat) (factor : UInt32) (f : Nat → UInt32 → UInt32) : Array UInt32 :=
  let i := 1 + t % (size - 1)
  let x := f i (ws.getD i 0 ^^^ (fold (ws.getD (i - 1) 0) * factor))
  let ws := ws.setIfInBounds i x
  if i = size - 1 then ws.setIfInBounds 0 x else ws

/-- Mixes a key into the words. -/
def absorb (key : Array UInt32) (ws : Array UInt32) : Array UInt32 :=
  let first := max size key.size
  let keyed := (List.range first).foldl (fun ws t =>
    replace ws t 1664525 fun _ x => x + key.getD (t % key.size) 0 + UInt32.ofNat (t % key.size)) ws
  let mixed := (List.range (size - 1)).foldl (fun ws t =>
    replace ws (first + t) 1566083941 fun i x => x - UInt32.ofNat i) keyed
  mixed.setIfInBounds 0 0x80000000

/-- The 32-bit digits of a number, the lowest first; zero has one. -/
def digits (n : Nat) : Array UInt32 :=
  (List.range (max 1 ((bitLength n + 31) / 32))).toArray.map fun i => UInt32.ofNat (n >>> (32 * i))

/-- The generator with a seed. -/
def ofSeed (seed : Int) : Twister := ⟨absorb (digits seed.natAbs) (grow 19650218), size⟩

/-- Renews the word at a place from those after it. -/
def renew (ws : Array UInt32) (i : Nat) : Array UInt32 :=
  let y := (ws.getD i 0 &&& 0x80000000) ||| (ws.getD ((i + 1) % size) 0 &&& 0x7fffffff)
  let x := ws.getD ((i + 397) % size) 0 ^^^ (y >>> 1)
  ws.setIfInBounds i (if y &&& 1 = 1 then x ^^^ 0x9908b0df else x)

/-- A word as it is given out. -/
def temper (x : UInt32) : UInt32 :=
  let x := x ^^^ (x >>> 11)
  let x := x ^^^ ((x <<< 7) &&& 0x9d2c5680)
  let x := x ^^^ ((x <<< 15) &&& 0xefc60000)
  x ^^^ (x >>> 18)

/-- The next word. All words are renewed when they are used up. -/
def next (g : Twister) : UInt32 × Twister :=
  if g.used < size then (temper (g.words.getD g.used 0), { g with used := g.used + 1 })
  else
    let words := (List.range size).foldl renew g.words
    (temper (words.getD 0 0), ⟨words, 1⟩)

instance : Source Twister := ⟨next⟩

end Twister
end Clvm.Random
