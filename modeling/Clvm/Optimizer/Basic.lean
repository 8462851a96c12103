import Clvm.Optimizer.Shape
import Clvm.Session

/-!
# The optimiser

Eight passes are tried in order. The first that changes a program starts over, and a program that none
changes is done. Constant programs are run; whatever else a run does to the session stays done.
-/

namespace Clvm.Optimizer

/-- Replaces a program that looks constant by its quoted value. -/
def evaluateConstant (run : Runner) (t : SExp) : Action Session SExp := do
  if (← seemsConstant t) && isNonNil t then
    let (_, v) ← run t .nil
    return Form.quote v
  else return t

/-- Whether a program is neither a path nor quoted. -/
def isComputed : SExp → Bool
  | .atom _ => false
  | .pair op _ => op != .atom Keyword.quote

/-- Moves the computation of an environment to the places that use it. This is kept when the result is
constant, or when nothing is left to compute in any of its parts. -/
def changeVariables (optimize : SExp → Action Session SExp) (t : SExp) : Action Session SExp :=
  match quotedCall? t with
  | none => pure t
  | some (body, env) => do
    let moved ← substitute env body
    if ← seemsConstant moved then optimize moved
    else
      let parts ← (← moved.toList).mapM optimize
      return if parts.any isComputed then t else .ofList parts

/-- Optimises the operator and every operand, unless the program is quoted. -/
def optimizeChildren (optimize : SExp → Action Session SExp) (t : SExp) : Action Session SExp :=
  match t with
  | .atom _ => pure t
  | .pair op _ =>
    if op = .atom Keyword.quote then pure t
    else do
      let parts ← t.items.mapM optimize
      t.checkProper
      return .ofList parts

/-- Applies one pass. -/
def applyPass (run : Runner) (optimize : SExp → Action Session SExp) (t : SExp) :
    Pass → Action Session SExp
  | .takeApart => pure (takeApart t)
  | .evaluateConstant => evaluateConstant run t
  | .unwrapApply => pure (unwrapApply t)
  | .changeVariables => changeVariables optimize t
  | .optimizeChildren => optimizeChildren optimize t
  | .mergePath => Action.ofExcept (mergePath t)
  | .dropQuotedNil => pure (dropQuotedNil t)
  | .dropAppliedNil => pure (dropAppliedNil t)

/-- The first of some passes that changes a program, and what it changes it to. -/
def firstChange (apply : Pass → Action Session SExp) (t : SExp) :
    List Pass → Action Session (Option (Pass × SExp))
  | [] => pure none
  | p :: ps => do
    let t' ← apply p
    if t' = t then firstChange apply t ps else return some (p, t')

/-- The optimised form of a program. -/
def optimize (run : Runner) : Nat → SExp → Action Session SExp
  | 0, _ => throw .outOfFuel
  | _ + 1, .atom b => pure (.atom b)
  | fuel + 1, .pair x y => do
    match ← firstChange (applyPass run (optimize run fuel) (.pair x y)) (.pair x y) Pass.all with
    | none => return .pair x y
    | some (pass, after) =>
      Session.record ⟨pass, .pair x y, after⟩
      optimize run fuel after

end Clvm.Optimizer
