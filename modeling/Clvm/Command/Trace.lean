import Clvm.Assembler
import Clvm.Command.Console
import Clvm.Command.Symbols
import Clvm.Hash.Sha256
import Clvm.SExp.Serial
import Clvm.Text.ByteLiteral

/-!
# Traces

The forms that were evaluated, in order, as lines of text or as a table.
-/

namespace Clvm.Command

/-- The value of an entry, or that there is none. -/
def resultText (e : Machine.Entry) : List Char :=
  (e.result.map SExp.toSource).getD "(didn't finish)".toList

/-- The name that a table has for a form. -/
def entryName? (symbols : Option Symbols) (e : Machine.Entry) : Except Error (Option (List Char)) :=
  match symbols with
  | none => .ok none
  | some s => s.name? (Bytes.toHex e.form.treeHash)

/-- A call of a named function: the name with the rest of the environment, which are the arguments. -/
def callText (name : List Char) (env : SExp) : Except Error (List Char) := do
  return (SExp.pair (.atom (Text.Utf8.encode name)) (← env.rest)).toSource

/-- Prints an entry as text, with an empty line after it. -/
def printEntry (name : Option (List Char)) (e : Machine.Entry) : Action Console Unit := do
  let call ← match name with
    | some name => callText name e.env
    | none => pure (e.form.toSource ++ " [".toList ++ e.env.toSource ++ [']'])
  printLine (call ++ " => ".toList ++ resultText e)
  printLine []

/-- Prints an entry as lines of a table. -/
def printRow (e : Machine.Entry) : Action Console Unit := do
  let (op, args) := match e.form with
    | .pair x y => (x, y)
    | .atom b => (.atom b, .nil)
  let row := fun (title : String) (text : List Char) => printLine (title.toList ++ ' ' :: text)
  row "exp:" op.toSource
  row "arg:" args.toSource
  row "env:" e.env.toSource
  row "val:" (resultText e)
  row "bexp:" (Text.byteLiteral op.serialize)
  row "barg:" (Text.byteLiteral args.serialize)
  row "benv:" (Text.byteLiteral e.env.serialize)
  printLine "--".toList

def printTrace (symbols : Option Symbols) (entries : List Machine.Entry) : Action Console Unit :=
  entries.forM fun e => do printEntry (← entryName? symbols e) e

def printTable (symbols : Option Symbols) (entries : List Machine.Entry) : Action Console Unit :=
  entries.forM fun e => do
    let _ ← entryName? symbols e
    printRow e

end Clvm.Command
