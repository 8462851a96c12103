import Clvm.Benchmark.Suite

/-!
# The bench

Where benchmarks are measured: the session, what has been printed, and which programs and commands have been
started outside.
-/

namespace Clvm.Benchmark

structure Bench where
  session : Session
  printed : Array (List Char)
  /-- The runs of programs, each with its arguments. -/
  runs : Array (List String)
  /-- The commands that have been given. -/
  commands : Array String
deriving DecidableEq, Repr

namespace Bench

def start (store : Store) : Bench := ⟨.start store, #[], #[], #[]⟩

/-- Everything that was printed. -/
def output (b : Bench) : List Char := b.printed.toList.flatMap (· ++ ['\n'])

end Bench

/-- Prints a line. -/
def printLine (line : List Char) : Action Bench Unit :=
  modify fun b => { b with printed := b.printed.push line }

/-- Gives a command. -/
def command (text : String) : Action Bench Unit :=
  modify fun b => { b with commands := b.commands.push text }

/-- Works on the session. -/
def inSession {α : Type} (act : Action Session α) : Action Bench α := fun b =>
  match act b.session with
  | .ok a session => .ok a { b with session }
  | .error e session => .error e { b with session }

/-- What running a program reports, by the name of its file. -/
abbrev Reports := String → Option (List Char)

/-- Runs the program of a file on the environment in the file beside it. -/
def runFile (reports : Reports) (file : String) : Action Bench (List Char) := do
  let envFile := String.ofList (file.toList.take (file.length - 4)) ++ "env"
  let env ← inSession (Session.onStore (·.read envFile))
  let arguments := ["brun", "--backend=rust", "-c", "--quiet", "--time", file, String.ofList env]
  modify fun b => { b with runs := b.runs.push arguments }
  match reports file with
  | some report => return report
  | none => throw .missingCounter

/-- The files and directories of a directory whose names have a beginning and an end, in order. Names that
start with a dot are left out. -/
def listing (store : Store) (directory : String) (first last : String) : List String :=
  (store.entries directory).filter fun name =>
    let cs := name.toList
    cs.head? ≠ some '.' ∧ first.length + last.length ≤ cs.length ∧ first.toList.isPrefixOf cs ∧
      last.toList.isSuffixOf cs

/-- A number with zeros before it up to a width of four. -/
def counterText (n : Nat) : List Char :=
  let ds := Text.natural n
  List.replicate (4 - ds.length) '0' ++ ds

/-- What results are about, from the name of their file. -/
def subjectOf (file : String) : String :=
  let named := (Text.after? "results-".toList file.toList).getD []
  String.ofList (Text.before ".csv".toList (Text.before "results-".toList named))

end Clvm.Benchmark
