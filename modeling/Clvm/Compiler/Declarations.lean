import Clvm.Compiler.Word
import Clvm.Form
import Clvm.Path
import Clvm.Session

/-!
# Declarations

A module declares functions, macros and constants before its main expression, and may include files of
further declarations. A name is declared once. The main expression is kept as the function of the empty
name.
-/

namespace Clvm.Compiler

/-- Declared things by name, in the order in which their names first came. A declaration whose name is a
pair has none. -/
abbrev Named := List (Option Bytes × SExp)

/-- Sets what a name stands for. -/
def Named.put (table : Named) (name : Option Bytes) (t : SExp) : Named :=
  if (table.lookup name).isSome then table.map fun e => if e.1 = name then (name, t) else e
  else table ++ [(name, t)]

/-- What a module declares. -/
structure Declarations where
  /-- Parameters and body of each function, as a list. -/
  functions : Named
  /-- The quoted value of each constant. -/
  constants : Named
  /-- The macro definitions, as written. -/
  macros : List SExp
  /-- Every name that has been declared. -/
  names : List (Option Bytes)
deriving DecidableEq, Repr

def Declarations.empty : Declarations := ⟨[], [], [], []⟩

/-- The name of the main expression. -/
def mainName : Bytes := []

/-- The code with every mention of a parameter unquoted. -/
def unquoteParameters (parameters : List Bytes) : SExp → SExp
  | .pair x y => .pair (unquoteParameters parameters x) (unquoteParameters parameters y)
  | .atom b => if parameters.contains b then .ofList [.atom Word.unquote, .atom b] else .atom b

/-- An inline function as a macro: its body, quasi-quoted, with its parameters unquoted. -/
def inlineToMacro (declaration : SExp) : Except Error SExp := do
  let named ← declaration.rest
  let signature ← named.rest
  let name ← named.first
  let parameters ← signature.first
  let body ← (← signature.rest).first
  let used := parameters.leaves.filter (· ≠ [])
  return .ofList [.atom Word.defineMacro, name, parameters,
    .ofList [.atom Word.quasi, unquoteParameters used body]]

/-- Notes a name, which must be new. -/
def Declarations.reserve (d : Declarations) (name : Option Bytes) : Except Error Declarations :=
  if d.names.contains name then
    match name with
    | none => .error .namelessTwice
    | some b =>
      match Text.Utf8.decode? b with
      | none => .error .notText
      | some text => .error (.source (.redefined text))
  else .ok { d with names := name :: d.names }

/-- Adds a declaration other than an inclusion. -/
def Declarations.add (d : Declarations) (keyword name declaration : SExp) :
    Except Error Declarations := do
  let name := name.bytes?
  let d ← d.reserve name
  if keyword = .atom Word.defineMacro then return { d with macros := d.macros ++ [declaration] }
  else if keyword = .atom Word.defineFunction then
    return { d with functions := d.functions.put name (← (← declaration.rest).rest) }
  else if keyword = .atom Word.defineInline then
    return { d with macros := d.macros ++ [← inlineToMacro declaration] }
  else if keyword = .atom Word.defineConstant then
    let v ← (← (← declaration.rest).rest).first
    return { d with constants := d.constants.put name (Form.quote v) }
  else .error (.source .unknownDeclaration)

/-- Reads the file that its environment names: `(_read (_full_path_for_name 1))`. -/
def includeProgram : SExp :=
  .ofList [.atom Word.readFile, .ofList [.atom Word.fullPathForName, Form.env]]

/-- Adds a declaration, or all those of an included file. -/
def declare (run : Runner) : Nat → Declarations → SExp → Action Session Declarations
  | 0, _, _ => throw .outOfFuel
  | fuel + 1, d, declaration => do
    let keyword ← declaration.first
    let name ← (← declaration.rest).first
    if keyword = .atom Word.includeFile then
      let (_, content) ← run includeProgram name
      let d ← content.items.foldlM (declare run fuel) d
      content.checkProper
      return d
    else Action.ofExcept (d.add keyword name declaration)

/-- Adds the declarations in front of the last item, and gives that. -/
def declareAll (run : Runner) (fuel : Nat) (d : Declarations) :
    SExp → Action Session (Declarations × SExp)
  | .atom b => throw (.eval .restOfAtom (.atom b))
  | .pair x (.atom []) => pure (d, x)
  | .pair x more => do
    let d ← declare run fuel d x
    declareAll run fuel d more

/-- The declarations of a module, the main expression among its functions. -/
def collect (run : Runner) (fuel : Nat) (source : SExp) : Action Session Declarations := do
  let parameters ← source.first
  let (d, main) ← declareAll run fuel .empty (← source.rest)
  return { d with functions := d.functions.put (some mainName) (.ofList [parameters, main]) }

end Clvm.Compiler
