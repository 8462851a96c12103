import Clvm.Toolchain

/-!
# Compiling files

A source file is compiled to a file of hexadecimal text, unless that file is there and not older than the source.
-/

namespace Clvm.Build

variable [Curve]

/-- Whether a target has to be made again from its source. -/
def isOutdated (source target : String) : Action Session Bool := do
  match (← get).store.modified target with
  | .ok made => return (← Session.onStore (·.modified source)) > made
  | .error .fileNotFound => return true
  | .error e => throw e

/-- Compiles a file if its target is outdated. Nothing is written if that fails. -/
def compileFile (search : List String) (source target : String) : Action Session Unit := do
  let source := FileName.plain source
  let target := FileName.plain target
  if ← isOutdated source target then
    let text ← Session.onStore (·.read source)
    let program ← Compiler.compileSource search text
    Session.writeFile target (String.ofList (Bytes.toHex program.serialize ++ ['\n']))

/-- The target that goes with a name. -/
def targetOf (name : String) : String := name ++ ".hex"

/-- Whether a file name is that of a source. -/
def isSource (name : String) : Bool := ".clvm".toList.isSuffixOf name.toList

/-- The sources that a walk finds in a directory and below it: first those in the directory itself, then those of
one directory in it after the other, each walked to its end. A directory is not walked if its name is too long. -/
def walk (store : Store) (name : String) (here : Place) : List String :=
  if name.utf8ByteSize > Store.maxName then []
  else
    ((store.filesIn here).filter isSource).map (FileName.inside name) ++
      (store.directoriesIn here).attach.flatMap fun d => walk store (FileName.join name d.1) (here ++ [d.1])
termination_by store.depth - here.length
decreasing_by
  have := Store.length_lt_depth d.2
  simp only [List.length_append, List.length_singleton]
  omega

/-- The sources below a directory, in the order in which they are found. -/
def sourcesBelow (store : Store) (directory : String) : List String :=
  match store.resolve directory with
  | .directory place => walk store directory place
  | _ => []

/-- Compiles all sources below a directory to the one target of that directory, and lists it for each of
them. -/
def compileDirectory (directory : String) : Action Session (List String) := do
  if !FileName.isAllowed directory then throw .badFileName
  (sourcesBelow (← get).store directory).mapM fun source => do
    compileFile [] source (targetOf directory)
    return targetOf directory

end Clvm.Build
