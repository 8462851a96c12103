import Clvm.Hash.Sha256
import Clvm.Session
import Clvm.Text.Quoted
import Clvm.Text.Split

/-!
# Symbol files

A compiled module leaves a table from the hashes of its functions and constants to their names, for traces
to name what they show. The table is one JSON object; a hash that comes twice keeps its place and takes
the later name.
-/

namespace Clvm

/-- Names by hash, both as text. -/
abbrev SymbolNames := List (List Char × List Char)

namespace SymbolNames

/-- Names a hash. -/
def put (table : SymbolNames) (hash name : List Char) : SymbolNames :=
  if (table.lookup hash).isSome then table.map fun e => if e.1 = hash then (hash, name) else e
  else table ++ [(hash, name)]

/-- The text of a symbol file. -/
def toText (table : SymbolNames) : List Char :=
  let entries := table.map fun (hash, name) => Text.quoted hash ++ ": ".toList ++ Text.quoted name
  '\x7b' :: Text.join ", ".toList entries ++ ['\x7d']

end SymbolNames

namespace Compiler

/-- The file that symbols are left in. -/
def symbolFile : String := "main.sym"

/-- Runs the program of every named value and names the value's hash. -/
def nameValues (run : Runner) : SymbolNames → List (Option Bytes × SExp) → Action Session SymbolNames
  | table, [] => pure table
  | table, (name, program) :: more => do
    let (_, v) ← run program .nil
    match name with
    | none => throw .notAnAtom
    | some b =>
      match Text.Utf8.decode? b with
      | none => throw .notText
      | some text => nameValues run (table.put (Bytes.toHex v.treeHash) text) more

/-- Leaves the symbol file of some named programs. -/
def writeSymbols (run : Runner) (programs : List (Option Bytes × SExp)) : Action Session Unit := do
  let table ← nameValues run [] programs
  Session.writeFile symbolFile (String.ofList table.toText)

end Compiler
end Clvm
