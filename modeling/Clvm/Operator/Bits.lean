/-!
# Bits of integers

An integer has infinitely many bits, all equal from some place on. A negative integer is the complement
of a natural number, so every operation on bits is one on natural numbers.
-/

namespace Clvm.Bits

/-- The complement of every bit. -/
def complement (i : Int) : Int := -i - 1

/-- The bits of `m` that are not bits of `n`. -/
def without (m n : Nat) : Nat := m ^^^ (m &&& n)

/-- The bits that both integers have. -/
def and : Int → Int → Int
  | .ofNat m, .ofNat n => (m &&& n : Nat)
  | .ofNat m, .negSucc n => (without m n : Nat)
  | .negSucc m, .ofNat n => (without n m : Nat)
  | .negSucc m, .negSucc n => .negSucc (m ||| n)

/-- The bits that either integer has. -/
def or (i j : Int) : Int := complement (and (complement i) (complement j))

/-- The bits that exactly one of the integers has. -/
def xor : Int → Int → Int
  | .ofNat m, .ofNat n => (m ^^^ n : Nat)
  | .ofNat m, .negSucc n => .negSucc (m ^^^ n)
  | .negSucc m, .ofNat n => .negSucc (m ^^^ n)
  | .negSucc m, .negSucc n => (m ^^^ n : Nat)

/-- Shifts to the left, or to the right when `n` is negative; bits shifted out on the right are dropped. -/
def shift (i n : Int) : Int :=
  match n with
  | .ofNat n => i * (Nat.pow 2 n : Nat)
  | .negSucc n => i >>> (n + 1)

end Clvm.Bits
