import Clvm.Text.Split

/-!
# File names

A file name is read as its components between slashes. In its plain form empty components and single
dots are left out; double dots are kept, as they may lead out of a directory that is a link.
-/

namespace Clvm.FileName

/-- The components of a name, as written. -/
def components (name : String) : List String :=
  (Text.splitOn '/' name.toList).map String.ofList

/-- The components that lead somewhere. -/
def steps (name : String) : List String :=
  (components name).filter fun c => c ≠ "" ∧ c ≠ "."

/-- Whether a text can be a name at all: a name has no zero character. -/
def isAllowed (name : String) : Bool := !name.toList.contains (Char.ofNat 0)

/-- Whether a name starts at the root of the file system. -/
def isAbsolute (name : String) : Bool := name.toList.head? = some '/'

/-- A name from its components. -/
def ofSteps (absolute : Bool) (steps : List String) : String :=
  let body := String.ofList (Text.join ['/'] (steps.map String.toList))
  if absolute then "/" ++ body else if steps.isEmpty then "." else body

/-- The plain form of a name. -/
def plain (name : String) : String := ofSteps (isAbsolute name) (steps name)

/-- The name of a file inside a directory, in plain form. -/
def inside (directory name : String) : String :=
  if isAbsolute name then plain name
  else ofSteps (isAbsolute directory) (steps directory ++ steps name)

/-- The name of an entry of a directory, with the name of the directory as it stands. -/
def join (directory entry : String) : String :=
  if directory = "" ∨ directory.toList.getLast? = some '/' then directory ++ entry else directory ++ "/" ++ entry

end Clvm.FileName
