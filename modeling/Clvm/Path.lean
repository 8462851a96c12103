import Clvm.Bytes.Integer
import Clvm.Error.Basic
import Clvm.Text.Decimal

/-!
# Paths

The places of a tree are numbered: the root is one, and below place `n` at depth `d` the first part is
`n + 2 ^ d` and the rest `n + 2 ^ (d + 1)`. In binary, the bits below the highest say from the lowest up
whether to go to the first part or to the rest. Composing two paths puts the second's bits above the first's.
-/

namespace Clvm

/-- The number of a place in a tree. -/
structure Path where
  index : Nat
deriving DecidableEq, Repr

namespace Path

/-- The whole tree. -/
def top : Path := ⟨1⟩

/-- The first part. -/
def left : Path := ⟨2⟩

/-- The rest. -/
def right : Path := ⟨3⟩

/-- The number of the place `b` inside the place `a`, for any integers; a number below two has no bits to
put under the other's. -/
def composeNumbers : Int → Int → Int
  | .ofNat a, b => b * (Nat.pow 2 a.log2 : Nat) + (a % Nat.pow 2 a.log2 : Nat)
  | .negSucc _, b => b

/-- The place `q` inside the place `p`. -/
def compose (p q : Path) : Path :=
  ⟨q.index * Nat.pow 2 p.index.log2 + p.index % Nat.pow 2 p.index.log2⟩

/-- The path of a number. A negative number is read as the unsigned number of the same bytes, where the
bytes are as many as its absolute value needs. -/
def ofInt : Int → Except Error Path
  | .ofNat n => .ok ⟨n⟩
  | .negSucc n =>
    let size := Nat.pow 256 (byteLength (n + 1))
    if 2 * (n + 1) ≤ size then .ok ⟨size - (n + 1)⟩ else .error .pathOutOfRange

/-- Twice the number: a zero bit below all others. -/
def doubled (p : Path) : Path := ⟨2 * p.index⟩

/-- Twice the number and one: a one bit below all others. -/
def doubledNext (p : Path) : Path := ⟨2 * p.index + 1⟩

/-- The bytes of the number. -/
def toBytes (p : Path) : Bytes := Bytes.ofNat p.index

/-- The program that gives what stands at the path. -/
def toSExp (p : Path) : SExp := .atom p.toBytes

/-- The path as a text. -/
def toText (p : Path) : Except Error (List Char) := do
  return "NodePath: ".toList ++ (← Text.boundedInteger p.index)

theorem compose_eq_composeNumbers (p q : Path) :
    ((p.compose q).index : Int) = composeNumbers p.index q.index := by
  simp [compose, composeNumbers]

end Path
end Clvm
