/-!
# Trees

Programs, environments and results are binary trees whose leaves are byte strings. The empty byte
string stands for nil, zero and false. A list is a chain of pairs along `rest`, and nothing makes the
chain end in nil: `items` gives what the chain holds and `terminator` the leaf that ends it.
-/

namespace Clvm

/-- A byte string. -/
abbrev Bytes := List UInt8

/-- A binary tree with byte strings as leaves. -/
inductive SExp where
  | atom (bytes : Bytes)
  | pair (first rest : SExp)
deriving DecidableEq, Repr, Inhabited

namespace SExp

/-- The empty atom. -/
@[match_pattern] def nil : SExp := .atom []

/-- The atom that stands for true. -/
def one : SExp := .atom [1]

/-- The atom of a truth value. -/
def ofBool (b : Bool) : SExp := if b then one else nil

def isPair : SExp → Bool
  | .atom _ => false
  | .pair _ _ => true

def isNil : SExp → Bool
  | .atom [] => true
  | _ => false

/-- The bytes of an atom. -/
def bytes? : SExp → Option Bytes
  | .atom b => some b
  | .pair _ _ => none

/-- The number of pairs and atoms. -/
def size : SExp → Nat
  | .atom _ => 1
  | .pair x y => size x + size y + 1

/-- The chain of pairs that holds `items` and ends in `tail`. -/
def ofListWith (tail : SExp) : List SExp → SExp
  | [] => tail
  | x :: xs => .pair x (ofListWith tail xs)

/-- The list of `items`, ended by nil. -/
def ofList (items : List SExp) : SExp := ofListWith nil items

/-- The items along `rest`. -/
def items : SExp → List SExp
  | .atom _ => []
  | .pair x y => x :: items y

/-- The leaf at the end of the chain of pairs. -/
def terminator : SExp → Bytes
  | .atom b => b
  | .pair _ y => terminator y

/-- The number of pairs along `rest`, whatever ends them. -/
def listLength : SExp → Nat
  | .atom _ => 0
  | .pair _ y => listLength y + 1

/-- Every atom, from left to right. -/
def leaves : SExp → List Bytes
  | .atom b => [b]
  | .pair x y => leaves x ++ leaves y

@[simp] theorem items_ofListWith (tail : SExp) (xs : List SExp) :
    (ofListWith tail xs).items = xs ++ tail.items := by
  induction xs with
  | nil => rfl
  | cons x xs ih => simp [ofListWith, items, ih]

@[simp] theorem items_ofList (xs : List SExp) : (ofList xs).items = xs := by
  simp [ofList, nil, items]

@[simp] theorem terminator_ofList (xs : List SExp) : (ofList xs).terminator = [] := by
  induction xs with
  | nil => rfl
  | cons x xs ih => simpa [ofList, ofListWith, terminator] using ih

/-- A tree is its items followed by the leaf that ends them. -/
theorem ofListWith_items (t : SExp) : ofListWith (.atom t.terminator) t.items = t := by
  induction t with
  | atom b => rfl
  | pair x y _ ih => simp [items, terminator, ofListWith, ih]

end SExp
end Clvm
