import Clvm.Form
import Clvm.Machine.Lookup
import Clvm.Path
import Clvm.SExp.Access

/-!
# Shapes of programs

What the optimiser sees in a program without running it: whether its value depends on the environment,
and what it becomes when its environment is computed by another program.
-/

namespace Clvm.Optimizer

/-- Anything but the empty atom. -/
def isNonNil (t : SExp) : Bool := !t.isNil

mutual

/-- Whether a program looks as if it gave the same value in every environment: it has no paths and raises
nothing. Operands after one that does not are not looked at. -/
def seemsConstant : SExp → Except Error Bool
  | .atom b => .ok b.isEmpty
  | .pair (.atom op) operands =>
    if op = Keyword.quote then .ok true
    else if op = Keyword.raise then .ok false
    else allSeemConstant operands
  | .pair (.pair x y) operands => do
    if ← seemsConstant (.pair x y) then allSeemConstant operands else return false

def allSeemConstant : SExp → Except Error Bool
  | .atom [] => .ok true
  | .atom b => .error (.eval .firstOfAtom (.atom b))
  | .pair x more => do
    if ← seemsConstant x then allSeemConstant more else return false

end

/-- Whether a program is the path to its whole environment, with or without leading zeros. -/
def isWholeEnv : SExp → Bool
  | .atom b => Bytes.toInt b == 1
  | .pair _ _ => false

/-- The program of the first part of what `t` computes. -/
def firstOf : SExp → SExp
  | .pair (.atom [4]) (.pair x (.pair _ (.atom []))) => x
  | t => Form.first t

/-- The program of the rest of what `t` computes. -/
def restOf : SExp → SExp
  | .pair (.atom [4]) (.pair _ (.pair y (.atom []))) => y
  | t => Form.rest t

/-- The program of what stands at a place of what `env` computes. A number that is no path stands for the
whole. -/
def placeOf (path : Int) (env : SExp) : SExp :=
  match path with
  | .ofNat n => (Machine.branches n).foldl (fun t right => if right then restOf t else firstOf t) env
  | .negSucc _ => env

mutual

/-- The program that does in an environment what `t` does in the one that `env` computes there. -/
def substitute (env : SExp) : SExp → Except Error SExp
  | .atom b => .ok (placeOf (Bytes.toInt b) env)
  | .pair (.atom op) operands =>
    if op = Keyword.quote then .ok (.pair (.atom op) operands)
    else do return .pair (.atom op) (← substituteAll env operands)
  | .pair (.pair x y) operands => do
    return .pair (← substitute env (.pair x y)) (← substituteAll env operands)

def substituteAll (env : SExp) : SExp → Except Error SExp
  | .atom [] => .ok .nil
  | .atom b => .error (.eval .firstOfAtom (.atom b))
  | .pair x more => do return .pair (← substitute env x) (← substituteAll env more)

end

/-- The parts of `(a (q . body) env)`. -/
def quotedCall? : SExp → Option (SExp × SExp)
  | .pair (.atom [2]) (.pair (.pair (.atom [1]) body) (.pair env (.atom []))) => some (body, env)
  | _ => none

/-- `(f (c x y))` is `x`, and `(r (c x y))` is `y`. -/
def takeApart : SExp → SExp
  | .pair (.atom [5]) (.pair (.pair (.atom [4]) (.pair x (.pair _ (.atom [])))) (.atom [])) => x
  | .pair (.atom [6]) (.pair (.pair (.atom [4]) (.pair _ (.pair y (.atom [])))) (.atom [])) => y
  | t => t

/-- `(a (q . body) 1)` is `body`. -/
def unwrapApply (t : SExp) : SExp :=
  match quotedCall? t with
  | some (body, env) => if isWholeEnv env then body else t
  | none => t

/-- The path of a place inside the place that an atom names. -/
def extendPath (b : Bytes) (q : Path) : Except Error SExp := do
  return ((← Path.ofInt (Bytes.toInt b)).compose q).toSExp

/-- The first part or the rest of what a path names has a path itself. -/
def mergePath : SExp → Except Error SExp
  | .pair (.atom [5]) (.pair (.atom (x :: xs)) (.atom [])) => extendPath (x :: xs) .left
  | .pair (.atom [6]) (.pair (.atom (x :: xs)) (.atom [])) => extendPath (x :: xs) .right
  | t => .ok t

/-- `(q)` is nil. -/
def dropQuotedNil : SExp → SExp
  | .pair (.atom [1]) (.atom []) => .nil
  | t => t

/-- Applying nil gives nil. -/
def dropAppliedNil : SExp → SExp
  | .pair (.atom [2]) (.pair (.atom []) _) => .nil
  | t => t

end Clvm.Optimizer
