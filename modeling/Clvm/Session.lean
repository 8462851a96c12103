import Clvm.Files.Store
import Clvm.Machine.Basic
import Clvm.Text.Utf8

/-!
# Sessions

What compiling changes besides giving a result: the files, and the record of the reductions that the
optimiser made.
-/

namespace Clvm

/-- The passes of the optimiser, in the order in which they are tried. -/
inductive Pass where
  | takeApart
  | evaluateConstant
  | unwrapApply
  | changeVariables
  | optimizeChildren
  | mergePath
  | dropQuotedNil
  | dropAppliedNil
deriving DecidableEq, Repr

namespace Pass

def all : List Pass :=
  [takeApart, evaluateConstant, unwrapApply, changeVariables, optimizeChildren, mergePath, dropQuotedNil,
   dropAppliedNil]

/-- The name under which a pass is reported. -/
def name : Pass → String
  | takeApart => "cons_optimizer"
  | evaluateConstant => "constant_optimizer"
  | unwrapApply => "cons_q_a_optimizer"
  | changeVariables => "var_change_optimizer_cons_eval"
  | optimizeChildren => "children_optimizer"
  | mergePath => "path_optimizer"
  | dropQuotedNil => "quote_null_optimizer"
  | dropAppliedNil => "apply_null_optimizer"

def ofName? (s : String) : Option Pass := all.find? (·.name == s)

end Pass

/-- A change that a pass made. -/
structure Reduction where
  pass : Pass
  before : SExp
  after : SExp
deriving DecidableEq, Repr

structure Session where
  store : Store
  reductions : Array Reduction
deriving DecidableEq, Repr

namespace Session

def start (store : Store) : Session := ⟨store, #[]⟩

/-- Records a reduction. -/
def record (r : Reduction) : Action Session Unit :=
  modify fun s => { s with reductions := s.reductions.push r }

/-- Runs a computation on the files. -/
def onStore {α : Type} (f : Store → Except Error α) : Action Session α := do
  Action.ofExcept (f (← get).store)

/-- Writes a file. -/
def writeFile (name text : String) : Action Session Unit := do
  let store ← onStore (·.write name text)
  modify fun s => { s with store }

/-- Writes at the end of a file, which is made if it does not exist. -/
def appendToFile (name text : String) : Action Session Unit := do
  match (← get).store.find name with
  | .ok f => writeFile name (f.text ++ text)
  | .error .fileNotFound => writeFile name text
  | .error e => throw e

/-- Makes a directory where there is nothing yet. -/
def makeDirectory (name : String) : Action Session Unit :=
  modify fun s => { s with store := s.store.makeDirectory name }

end Session

/-- Runs programs while compiling. -/
abbrev Runner := SExp → SExp → Action Session Charged

end Clvm
