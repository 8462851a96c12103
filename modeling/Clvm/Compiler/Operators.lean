import Clvm.Compiler.Basic
import Clvm.Compiler.Module

/-!
# Operators of the compiler

While compiling, the machine also knows operators that compile, optimise, look for files on the search path,
and read them. What these run inside is neither limited nor strict nor traced.
-/

namespace Clvm.Compiler

/-- What compiling depends on besides the session. -/
structure Settings where
  /-- The directories that included files are looked for in. -/
  search : List String
  /-- The macro table to use where none is given. -/
  defaults : Except Error SExp

/-- The name that an atom gives a file. No file has a name that is not text. -/
def fileName (t : SExp) : Except Error String :=
  match t with
  | .pair _ _ => .error .notAnAtom
  | .atom b =>
    if b.contains 0 then .error .badFileName
    else
      match Text.Utf8.decode? b with
      | some cs => .ok (String.ofList cs)
      | none => .error .fileNotFound

/-- Compiles its first operand, with a macro table and a symbol table if they are given. -/
def compileOperator (settings : Settings) (run : Runner) (fuel : Nat) (args : SExp) :
    Action Session Charged := do
  let source ← args.first
  let tables ← args.rest
  let macros ← if tables.isNil then settings.defaults else tables.first
  let symbols ←
    if tables.isNil then pure .nil
    else do
      let more ← tables.rest
      if more.isNil then pure .nil else more.first
  let scope : Scope := ⟨macros, symbols, compileModule run fuel macros⟩
  return (1, ← compile scope fuel source)

/-- Optimises its first operand. -/
def optimizeOperator (run : Runner) (fuel : Nat) (args : SExp) : Action Session Charged := do
  return (1, ← Optimizer.optimize run fuel (← args.first))

/-- The first file of a name on the search path. A name that is too long ends the search. -/
def findFile (store : Store) (name : String) : List String → Except Error (Option String)
  | [] => .ok none
  | directory :: more =>
    let full := FileName.inside directory name
    match store.find full with
    | .ok _ => .ok (some full)
    | .error .nameTooLong => .error .nameTooLong
    | .error _ => findFile store name more

/-- Gives the full name of the file that its first operand names. -/
def searchOperator (settings : Settings) (args : SExp) : Action Session Charged := do
  let name := (← args.first).bytes?
  if settings.search.isEmpty then throw (.eval (.cannotOpen name) args)
  else
    match name with
    | none => throw .notAnAtom
    | some b =>
      match Text.Utf8.decode? b with
      | none => throw .notText
      | some cs =>
        match ← findFile (← get).store (String.ofList cs) settings.search with
        | some full => return (1, .atom (Text.Utf8.encode full.toList))
        | none => throw (.eval (.cannotOpen name) args)

/-- Gives the tree of the source in a file. -/
def readOperator (args : SExp) : Action Session Charged := do
  let name ← fileName (← args.first)
  let source ← Session.onStore (·.read name)
  return (1, ← SExp.ofSource source)

/-- Empties a file. A tree is never written to it. -/
def writeOperator (args : SExp) : Action Session Charged := do
  let named ← args.first
  let _ ← (← args.rest).first
  Session.writeFile (← fileName named) ""
  throw .cannotWriteTree

/-- The machine's operators and those of the compiler. -/
def operators [Curve] (settings : Settings) (run : Runner) (fuel : Nat) : Operators Session where
  known b :=
    if b = Word.com then some (compileOperator settings run fuel)
    else if b = Word.opt then some (optimizeOperator run fuel)
    else if b = Word.fullPathForName then some (searchOperator settings)
    else if b = Word.readFile then some readOperator
    else if b = Word.writeFile then some writeOperator
    else Operators.base.known b
  unknown := UnknownOperator.apply

/-- Runs programs with the operators of the compiler. Each level of runs inside runs takes fuel. -/
def runner [Curve] (settings : Settings) : Nat → Runner
  | 0, _, _ => throw .outOfFuel
  | fuel + 1, form, env =>
    Machine.evaluate (.plain (operators settings (runner settings fuel) fuel)) fuel form env

end Clvm.Compiler
