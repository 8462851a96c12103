import Clvm.Command.Mention
import Clvm.Command.Tool

/-!
# The command line

The first argument names a tool, and the others are its arguments. Files are read before the tool is called,
and those that it changed are written afterwards.
-/

namespace Clvm.CommandLine

open Command

/-- The text of a file on disk. -/
def fileText? (name : String) : IO (Option String) := do
  try return some (← IO.FS.readFile name) catch _ => return none

/-- Loads files, and those that they may mention. -/
partial def loadFiles (search : List String) (store : Store) : List String → IO Store
  | [] => return store
  | name :: more => do
    if store.isFile name then loadFiles search store more
    else
      match ← fileText? name with
      | none => loadFiles search store more
      | some text => loadFiles search (store.place name text 0) (mentionedNames search text.toList ++ more)

/-- Reads the standard input to its end. -/
partial def readAll (input : IO.FS.Stream) (text : String) : IO String := do
  let line ← input.getLine
  if line.isEmpty then return text else readAll input (text ++ line)

/-- The directories to search that arguments give. -/
def searchOf (args : List String) : List String :=
  match Arguments.read Execution.usage args with
  | .ok parsed => (parsed.values .search).filterMap id
  | .error _ => []

/-- Writes what a tool printed and the files it changed. -/
def finish (before : Store) (console : Console) : IO Unit := do
  IO.print (String.ofList console.output)
  for (name, text) in Store.changes before console.session.store do
    IO.FS.writeFile name text

/-- Calls the tool that the first argument names. -/
def call (args : List String) : IO UInt32 := do
  match args with
  | name :: args =>
    match Tool.ofName? name with
    | some tool =>
      let search := searchOf args
      let store ← loadFiles search .empty (args ++ args.flatMap fun a => mentionedNames search a.toList)
      let input ← if args.contains "-" then readAll (← IO.getStdin) "" else pure ""
      match tool.call args store input.toList with
      | .usage status => return UInt32.ofNat status
      | .ended ending console =>
        finish store console
        return if ending = .success then 0 else 255
      | .failed error console =>
        finish store console
        IO.eprintln (error.message?.getD "failed")
        return 1
    | none => return 2
  | [] => return 2

end Clvm.CommandLine

def main (args : List String) : IO UInt32 := Clvm.CommandLine.call args
