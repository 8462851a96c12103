import Clvm.Compiler.Defaults
import Clvm.SExp.Serial

/-!
# Compiling and running

The whole way from source text to a program, and from a program to its value, with either set of operators.
-/

namespace Clvm

/-- Which operators a program may use. -/
inductive Dialect where
  /-- Those of the machine. -/
  | machine
  /-- Those of the compiler as well. -/
  | compiler
deriving DecidableEq, Repr

variable [Curve]

namespace Compiler

/-- The default macros, and included files from the given directories. -/
def Settings.standard (search : List String) : Settings := ⟨search, defaultMacros⟩

/-- Runs programs with the operators of the compiler, without limits. -/
def standardRunner (search : List String) : Runner := runner (.standard search) Machine.ample

/-- Compiles the value of a program and runs the result: `(a (com program (q . macros)) 1)`. -/
def compileAndRun (program macros : SExp) : SExp :=
  Form.apply (.ofList [.atom Word.com, program, Form.quote macros]) Path.top.toSExp

/-- Runs the first part of its environment on the rest: `(a 2 3)`. -/
def runProgram : SExp := Form.apply (Form.path 2) (Form.path 3)

/-- Compiles and optimises the first part of its environment, and runs it on the rest:
`(a (opt (com 2)) 3)`. -/
def compileProgram : SExp :=
  Form.apply (.ofList [.atom Word.opt, .ofList [.atom Word.com, Form.path 2]]) (Form.path 3)

/-- The program of a source text. -/
def compileSource (search : List String) (source : List Char) : Action Session SExp := do
  let tree ← SExp.ofSource source
  let (_, program) ← standardRunner search compileProgram (.pair tree .nil)
  return program

/-- The program of an expression, with a macro table and a symbol table. -/
def compileExpression (macros symbols source : SExp) : Action Session SExp :=
  let run := standardRunner []
  compile ⟨macros, symbols, compileModule run Machine.ample macros⟩ Machine.ample source

/-- The program of a quasi-quotation. -/
def compileQuotation (macros symbols : SExp) (level : Int) (args : SExp) : Action Session SExp :=
  let run := standardRunner []
  compileQuasi ⟨macros, symbols, compileModule run Machine.ample macros⟩ Machine.ample level args

end Compiler

namespace Optimizer

/-- The optimised form of a program. -/
def optimizeProgram (program : SExp) : Action Session SExp :=
  optimize (Compiler.standardRunner []) Machine.ample program

/-- What one pass makes of a program. -/
def runPass (pass : Pass) (program : SExp) : Action Session SExp :=
  applyPass (Compiler.standardRunner []) optimizeProgram program pass

end Optimizer

namespace Reduction

/-- A reduction as it is reported, with an empty line after it. -/
def toText (r : Reduction) : List Char :=
  "OPT-".toList ++ r.pass.name.toList ++ ['['] ++ Bytes.toHex r.before.serialize ++ "] => ".toList ++
    Bytes.toHex r.after.serialize ++ "\n\n".toList

end Reduction

namespace Dialect

/-- The operators of a dialect, strict or not. -/
def operators (d : Dialect) (search : List String) (strict : Bool) : Operators Session :=
  let ops :=
    match d with
    | machine => Operators.base
    | compiler => Compiler.operators (.standard search) (Compiler.standardRunner search) Machine.ample
  if strict then ops.strict else ops

/-- Evaluates a form, with a limit on the cost unless it is zero, and a record of the forms to watch. -/
def run (d : Dialect) (search : List String) (limit : Int) (strict : Bool) (watch : SExp → Bool)
    (form env : SExp) (s : Session) : Machine.Run × Session :=
  let config := { Machine.Config.limited (d.operators search strict) limit with watch }
  Machine.run config Machine.ample (.start form env) s

/-- The cost and value of a form. -/
def evaluate (d : Dialect) (search : List String) (limit : Int) (strict : Bool) (form env : SExp) :
    Action Session Charged := fun s =>
  match d.run search limit strict (fun _ => false) form env s with
  | (⟨.ok r, _⟩, s') => .ok r s'
  | (⟨.error e, _⟩, s') => .error e s'

end Dialect
end Clvm
