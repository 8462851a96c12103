import Clvm.Error.Basic
import Clvm.Files.Name

/-!
# Files

The files that a computation sees: texts at places below one directory, each with the time of its last
change. A directory exists if it was made or if a file is below it. A clock gives every write a later time
than the one before.
-/

namespace Clvm

/-- A text and when it was last changed. -/
structure File where
  text : String
  modified : Int
deriving DecidableEq, Repr

/-- The components that lead to a file or directory. -/
abbrev Place := List String

structure Store where
  files : List (Place × File)
  directories : List Place
  /-- The time of the next write. -/
  clock : Int
deriving DecidableEq, Repr

namespace Store

/-- Later than any time that a file is given from outside. -/
def presentTime : Int := Int.ofNat (Nat.pow 2 62)

def empty : Store := ⟨[], [], presentTime⟩

/-- What a name leads to. -/
inductive Target where
  | file (place : Place) (file : File)
  | directory (place : Place)
  /-- Nothing, but a file can be made there. -/
  | vacant (place : Place)
  /-- Nothing, and the directory it would be in does not exist either. -/
  | missing
  /-- The name goes on below a file. -/
  | belowFile
  /-- Nothing can have the name, as it is too long. -/
  | tooLong
deriving DecidableEq, Repr

def fileAt? (s : Store) (p : Place) : Option File := s.files.lookup p

def isDirectory (s : Store) (p : Place) : Bool :=
  p.isEmpty || s.directories.any (p.isPrefixOf ·) ||
    s.files.any fun (q, _) => p.isPrefixOf q && p.length < q.length

/-- The most bytes of a component. -/
def maxComponent : Nat := 255

/-- The most bytes of a name. -/
def maxName : Nat := 4095

/-- Follows components from a directory. -/
def follow (s : Store) : Place → List String → Target
  | here, [] => .directory here
  | here, c :: more =>
    if c = "" ∨ c = "." then follow s here more
    else if c = ".." then if here.isEmpty then .missing else follow s here.dropLast more
    else if c.utf8ByteSize > maxComponent then .tooLong
    else
      let there := here ++ [c]
      match s.fileAt? there with
      | some f => if more.isEmpty then .file there f else .belowFile
      | none =>
        if s.isDirectory there then follow s there more
        else if more.isEmpty then .vacant there
        else .missing

/-- What a name leads to. The empty name leads nowhere, and neither does one from the root of the file
system. -/
def resolve (s : Store) (name : String) : Target :=
  if name.utf8ByteSize > maxName then .tooLong
  else if name = "" ∨ FileName.isAbsolute name then .missing
  else s.follow [] (FileName.components name)

/-- Whether a name leads to a file. -/
def isFile (s : Store) (name : String) : Bool :=
  match s.resolve name with
  | .file _ _ => true
  | _ => false

/-- The file at a name. -/
def find (s : Store) (name : String) : Except Error File :=
  if !FileName.isAllowed name then .error .badFileName
  else match s.resolve name with
  | .file _ f => .ok f
  | .directory _ => .error .isADirectory
  | .belowFile => .error .notADirectory
  | .tooLong => .error .nameTooLong
  | .vacant _ | .missing => .error .fileNotFound

/-- When a file was last changed. A directory counts as changed after every file from outside. -/
def modified (s : Store) (name : String) : Except Error Int :=
  match s.find name with
  | .ok f => .ok f.modified
  | .error .isADirectory => .ok presentTime
  | .error e => .error e

/-- The text of a file, with line feeds at the ends of lines. -/
def read (s : Store) (name : String) : Except Error (List Char) := do
  return Text.unixLines (← s.find name).text.toList

/-- Sets the file at a place; a new file comes last. -/
def put (s : Store) (p : Place) (f : File) : Store :=
  if (s.fileAt? p).isSome then
    { s with files := s.files.map fun (q, g) => if q = p then (q, f) else (q, g) }
  else { s with files := s.files ++ [(p, f)] }

/-- Writes a text where a file is or can be made. -/
def write (s : Store) (name : String) (text : String) : Except Error Store :=
  let done := fun p => .ok { s.put p ⟨text, s.clock⟩ with clock := s.clock + 1 }
  if !FileName.isAllowed name then .error .badFileName
  else match s.resolve name with
  | .file p _ => done p
  | .vacant p => done p
  | .directory _ => .error .isADirectory
  | .belowFile => .error .notADirectory
  | .tooLong => .error .nameTooLong
  | .missing => .error .fileNotFound

/-- Puts a file of a given time, whatever directories that needs. -/
def place (s : Store) (name : String) (text : String) (modified : Int) : Store :=
  s.put (FileName.steps name) ⟨text, modified⟩

/-- Makes a directory where there is nothing yet, but could be. -/
def makeDirectory (s : Store) (name : String) : Store :=
  match s.resolve name with
  | .vacant p => { s with directories := s.directories ++ [p] }
  | _ => s

/-- Gives a file another time. -/
def touch (s : Store) (name : String) (modified : Int) : Store :=
  match s.resolve name with
  | .file p f => s.put p { f with modified }
  | _ => s

/-- The names of the files and directories in a directory, in order. -/
def entries (s : Store) (name : String) : List String :=
  match s.resolve name with
  | .directory here =>
    let names := (s.files.map (·.1) ++ s.directories).filterMap fun p =>
      if here.isPrefixOf p then p[here.length]? else none
    names.eraseDups.mergeSort (· ≤ ·)
  | _ => []

/-- The directories that were made and those that files are in. -/
def directoryPlaces (s : Store) : List Place := s.files.map (·.1.dropLast) ++ s.directories

/-- The names of the files in a directory, as they are listed: in the order of the store, which may be any. -/
def filesIn (s : Store) (here : Place) : List String :=
  s.files.filterMap fun (p, _) => if p.dropLast = here then p.getLast? else none

/-- The names of the directories in a directory, as they are listed. -/
def directoriesIn (s : Store) (here : Place) : List String :=
  (s.directoryPlaces.filterMap fun p => if here.isPrefixOf p then p[here.length]? else none).eraseDups

/-- How deep directories are nested. -/
def depth (s : Store) : Nat := (s.directoryPlaces.map List.length).foldr max 0

theorem length_le_depth {s : Store} {p : Place} (h : p ∈ s.directoryPlaces) : p.length ≤ s.depth := by
  rw [depth]
  generalize s.directoryPlaces = ps at h
  induction ps with
  | nil => cases h
  | cons q ps ih =>
    rw [List.map_cons, List.foldr_cons]
    rcases List.mem_cons.mp h with rfl | h
    · exact Nat.le_max_left ..
    · exact Nat.le_trans (ih h) (Nat.le_max_right ..)

theorem length_lt_depth {s : Store} {here : Place} {d : String} (h : d ∈ s.directoriesIn here) :
    here.length < s.depth := by
  simp only [directoriesIn, List.mem_eraseDups, List.mem_filterMap, Option.ite_none_right_eq_some] at h
  obtain ⟨p, hp, -, hd⟩ := h
  exact Nat.lt_of_lt_of_le (List.getElem?_eq_some_iff.mp hd).1 (length_le_depth hp)

/-- The files that are new or have another text than in `before`. -/
def changes (before after : Store) : List (String × String) :=
  after.files.filterMap fun (p, f) =>
    if (before.fileAt? p).map (·.text) = some f.text then none
    else some (FileName.ofSteps false p, f.text)

end Store
end Clvm
