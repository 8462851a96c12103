import Clvm.Command.Convert
import Clvm.Command.Execute

/-!
# Tools

The commands by name, called with arguments.
-/

namespace Clvm.Command

inductive Tool where
  | assemble
  | disassemble
  | read
  | run
  | compileAndRun
deriving DecidableEq, Repr

/-- What comes of calling a tool. -/
inductive Outcome where
  /-- The arguments were not accepted, or only asked for help; the tool ends with a status. -/
  | usage (status : Nat)
  | ended (ending : Ending) (console : Console)
  | failed (error : Error) (console : Console)

namespace Tool

def name : Tool → String
  | assemble => "opc"
  | disassemble => "opd"
  | read => "read_ir"
  | run => "brun"
  | compileAndRun => "run"

def all : List Tool := [assemble, disassemble, read, run, compileAndRun]

def ofName? (s : String) : Option Tool := all.find? (·.name == s)

/-- Starts a command on what its arguments ask for. -/
def start {κ : Type} (usage : Usage κ) (args : List String)
    (command? : Arguments κ → Option (Action Console Ending)) (console : Console) : Outcome :=
  match Arguments.read usage args with
  | .error .help => .usage 0
  | .error .refused => .usage 2
  | .ok parsed =>
    match command? parsed with
    | none => .usage 2
    | some act =>
      match act console with
      | .ok ending console => .ended ending console
      | .error e console => .failed e console

def startConversion (c : Conversion) (store : Store) (args : List String) : Console → Outcome :=
  start Conversion.usage args fun parsed =>
    some (c.convertAll (parsed.has .hash) (parsed.operands.map (operandText store)))

def startExecution [Curve] (other : OtherMachine) (dialect : Dialect) (wrapper : SExp) (store : Store)
    (args : List String) : Console → Outcome :=
  start Execution.usage args fun parsed => do
    match ← Execution.ofArguments? dialect wrapper store parsed with
    | .ok x => return x.perform other
    | .error e => return throw e

/-- Reading takes one source text, and no option but that for help. -/
def readingUsage : Usage Unit where
  switches := [⟨(), ["-h", "--help"], .help⟩]
  most := some 1
  accepts := fun _ => true

def startReading (args : List String) : Console → Outcome :=
  start readingUsage args fun parsed =>
    match parsed.operands with
    | [source] => some (printNode source.toList)
    | _ => none

/-- Starts the tool that compiles and runs. It leaves no run to the other machine unless that is asked for. -/
def startCompileAndRun [Curve] (other : OtherMachine) : Store → List String → Console → Outcome :=
  startExecution { other with installed := false } .compiler Compiler.compileProgram

end Tool

/-- What tools take from other libraries. -/
structure Libraries where
  machine : OtherMachine
  /-- The tool that compiles and runs. -/
  compileAndRun : Store → List String → Console → Outcome

/-- None of the libraries. The tool that compiles and runs is then the one here. -/
def Libraries.none [Curve] : Libraries where
  machine := .absent
  compileAndRun := Tool.startCompileAndRun .absent

namespace Tool

/-- Calls a tool with arguments, on files and a standard input. -/
def callWith [Curve] (libraries : Libraries) (tool : Tool) (args : List String) (store : Store) (input : List Char) :
    Outcome :=
  let console := Console.start store input
  match tool with
  | assemble => startConversion .assemble store args console
  | disassemble => startConversion .disassemble store args console
  | read => startReading args console
  | run => startExecution libraries.machine .machine Compiler.runProgram store args console
  | compileAndRun => libraries.compileAndRun store args console

/-- Calls a tool where no other library is installed. -/
def call [Curve] (tool : Tool) (args : List String) (store : Store) (input : List Char) : Outcome :=
  tool.callWith .none args store input

end Tool
end Clvm.Command
