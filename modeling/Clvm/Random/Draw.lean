import Clvm.Bytes.Integer

/-!
# Drawing numbers

Drawing is written for any source of 32-bit words, so that what is drawn can be studied for every
sequence of choices and not only for those of one generator.
-/

namespace Clvm.Random

/-- A source of words. -/
class Source (σ : Type) where
  word : σ → UInt32 × σ

/-- A computation that draws from a source. -/
abbrev Draw (σ : Type) := StateM σ

variable {σ : Type} [Source σ]

/-- The highest `k` bits of a word, for `k` up to 32. -/
def bits (k : Nat) : Draw σ Nat := do
  let w ← modifyGet Source.word
  return w.toNat >>> (32 - k)

/-- Draws `k` bits until they are a number below `n`. A source that never gives one is left after some
tries, with the number zero. -/
def belowWithin (n k : Nat) : Nat → Draw σ Nat
  | 0 => return 0
  | tries + 1 => do
    let x ← bits k
    if x < n then return x else belowWithin n k tries

/-- How often a number that is too large is drawn again. Every try succeeds with at least even odds. -/
def patience : Nat := Nat.pow 2 16

/-- A number below `n`. -/
def below (n : Nat) : Draw σ Nat := belowWithin n (bitLength n) patience

/-- A number from `low` to `high`. -/
def between (low high : Nat) : Draw σ Nat := do
  return low + (← below (high - low + 1))

/-- An item of a list that has a first item. -/
def choose {α : Type} (first : α) (others : List α) : Draw σ α := do
  return (first :: others).getD (← below (others.length + 1)) first

/-- The results of drawing several times. -/
def times {α : Type} (n : Nat) (d : Draw σ α) : Draw σ (List α) := (List.replicate n d).mapM id

end Clvm.Random
