import Clvm.Assembler
import Clvm.Compiler.Pruning
import Clvm.Compiler.SymbolFile
import Clvm.Optimizer.Basic

/-!
# Modules

A module becomes a program that pairs the tree of its constants with the environment and runs the main
expression on the pair. The constants are the functions and constants that are used, in a balanced tree
ordered by name, so each has a path that every function can use.
-/

namespace Clvm.Compiler

/-- Puts items into a balanced tree, the smaller half first. -/
def balanced (pair : SExp → SExp → SExp) (empty : SExp) : List SExp → SExp
  | [] => empty
  | [x] => x
  | x :: y :: more =>
    let items := x :: y :: more
    let half := items.length / 2
    pair (balanced pair empty (items.take half)) (balanced pair empty (items.drop half))
termination_by items => items.length
decreasing_by
  all_goals simp only [List.length_take, List.length_drop, List.length_cons]; omega

/-- The balanced tree of some items. -/
def buildTree (items : List SExp) : SExp := balanced .pair .nil items

/-- The program that computes the balanced tree of what some programs compute. -/
def buildTreeProgram (items : List SExp) : SExp := balanced Form.cons (.ofList [Form.quote .nil]) items

/-- The symbols of a tree of names that stands at a place: each name with its path. -/
def placesOf (root : Path) : SExp → List SExp
  | .atom [] => []
  | .atom b => [.ofList [.atom b, root.toSExp]]
  | .pair x y => placesOf (root.compose .left) x ++ placesOf (root.compose .right) y

/-- The program of the macro table with further macros in front of it. -/
def macroTableProgram (run : Runner) (fuel : Nat) (table : SExp) (macros : List SExp) :
    Action Session SExp :=
  macros.foldlM (fun program definition => do
    let extended := Form.apply
      (.ofList [.atom Word.opt,
        .ofList [.atom Word.com, Form.quote (Form.cons definition program), program]])
      Path.top.toSExp
    Optimizer.optimize run fuel extended) (Form.quote table)

/-- The program that compiles a function's body, with its parameters in front of other symbols. -/
def functionProgram (macroProgram : SExp) (root : Path) (symbols : List SExp) (function : SExp) :
    Except Error SExp := do
  let parameters := placesOf root (← function.first)
  let body ← (← function.rest).first
  return .ofList [.atom Word.opt,
    .ofList [.atom Word.com, Form.quote body, macroProgram, Form.quote (.ofList (parameters ++ symbols))]]

/-- The source of a program that builds the environment of the main expression and runs it there. -/
def linkedSource (main : SExp) (constants : Option SExp) : List Char :=
  let environment :=
    match constants with
    | some tree => "(c ".toList ++ tree.toSource ++ " 1)".toList
    | none => ['1']
  "(opt (q . (a ".toList ++ main.toSource ++ [' '] ++ environment ++ ")))".toList

/-- The program of a module. -/
def compileModule (run : Runner) (fuel : Nat) (macros source : SExp) : Action Session SExp := do
  let d ← collect run fuel source
  let macroProgram ← macroTableProgram run fuel macros d.macros
  let names ← usedNames d.functions d.constants d.macros
  let root := if names.isEmpty then Path.top else Path.right
  let symbols := placesOf .left (buildTree (names.map .atom))
  let compiled ← d.functions.mapM fun (name, function) => do
    return (name, ← functionProgram macroProgram root symbols function)
  let main := (compiled.lookup (some mainName)).getD .nil
  if names.isEmpty then SExp.ofSource (linkedSource main none)
  else
    let used : Named := compiled.filter fun (name, _) => names.any (name = some ·)
    let linked := d.constants.foldl (fun table (name, t) => table.put name t) used
    let constants := buildTreeProgram (names.map fun n => (linked.lookup (some n)).getD .nil)
    writeSymbols run linked
    SExp.ofSource (linkedSource main (some constants))

end Clvm.Compiler
