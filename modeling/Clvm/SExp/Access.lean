import Clvm.Error.Basic

/-!
# Taking trees apart

The parts of a tree, with the failure that reading a missing part gives.
-/

namespace Clvm.SExp

def first : SExp → Except Error SExp
  | .atom b => .error (.eval .firstOfAtom (.atom b))
  | .pair x _ => .ok x

def rest : SExp → Except Error SExp
  | .atom b => .error (.eval .restOfAtom (.atom b))
  | .pair _ y => .ok y

/-- The bytes of a tree that has to be an atom. -/
def bytes : SExp → Except Error Bytes
  | .atom b => .ok b
  | .pair _ _ => .error .notAnAtom

/-- Succeeds when the chain of pairs ends in nil. Walking on from any other leaf asks it for its
first part. -/
def checkProper (t : SExp) : Except Error Unit :=
  match t.terminator with
  | [] => .ok ()
  | b => .error (.eval .firstOfAtom (.atom b))

/-- The items of a list that ends in nil. -/
def toList (t : SExp) : Except Error (List SExp) := do
  t.checkProper
  return t.items

@[simp] theorem toList_ofList (xs : List SExp) : (ofList xs).toList = .ok xs := by
  simp [toList, checkProper, bind, Except.bind, pure, Except.pure]

end Clvm.SExp
