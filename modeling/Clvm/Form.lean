import Clvm.Bytes.Integer
import Clvm.Operator.Basic

/-!
# Building programs

The forms of which programs are put together.
-/

namespace Clvm.Form

/-- The program that gives `t`. -/
def quote (t : SExp) : SExp := .pair (.atom Keyword.quote) t

/-- The program that runs the value of `program` on the value of `env`. -/
def apply (program env : SExp) : SExp := .ofList [.atom Keyword.apply, program, env]

/-- The program that pairs two values. -/
def cons (x y : SExp) : SExp := .ofList [.atom Keyword.cons, x, y]

/-- The program that gives the first part of a value. -/
def first (x : SExp) : SExp := .ofList [.atom Keyword.first, x]

/-- The program that gives the rest of a value. -/
def rest (x : SExp) : SExp := .ofList [.atom Keyword.rest, x]

/-- The program that gives one of two values. -/
def choose (test yes no : SExp) : SExp := .ofList [.atom [Operator.choose.code], test, yes, no]

/-- The program that gives what stands at a place. -/
def path (n : Nat) : SExp := .atom (Bytes.ofNat n)

/-- The program that gives its whole environment. -/
def env : SExp := path 1

/-- A fixed program run on fixed data. -/
def run (program data : SExp) : SExp := apply (quote program) (quote data)

end Clvm.Form
