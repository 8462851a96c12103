import Clvm.Bytes.Integer
import Clvm.SExp.Access

/-!
# Places in an environment

An atom evaluated as a program names a place of the environment. Read as an unsigned number, its bits
from the lowest up say which way to go at each pair, and its highest bit ends them.
-/

namespace Clvm.Machine

/-- The lowest `count` bits of `n`, lowest first. -/
def lowBits : Nat → Nat → List Bool
  | 0, _ => []
  | count + 1, n => (n % 2 == 1) :: lowBits count (n / 2)

/-- The bits of `n` below its highest, lowest first. -/
def branches (n : Nat) : List Bool := lowBits n.log2 n

/-- Goes to the first part at `false` and to the rest at `true`. -/
def descend : List Bool → SExp → Except Error SExp
  | [], t => .ok t
  | _ :: _, .atom b => .error (.eval .pathIntoAtom (.atom b))
  | true :: more, .pair _ y => descend more y
  | false :: more, .pair x _ => descend more x

/-- The cost of a place, and what stands there. Each step costs, and so does each leading zero byte; a
place without a set bit is nil. -/
def lookup (path : Bytes) (env : SExp) : Except Error (Nat × SExp) :=
  let cost := 44 + 4 * (path.takeWhile (· == 0)).length
  let n := Bytes.toNat path
  if n = 0 then .ok (cost, .nil)
  else
    match descend (branches n) env with
    | .ok t => .ok (cost + 4 * (branches n).length, t)
    | .error e => .error e

end Clvm.Machine
