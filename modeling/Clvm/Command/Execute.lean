import Clvm.Command.Arguments
import Clvm.Command.Trace
import Clvm.Error.Message
import Clvm.Text.Hex
import Clvm.Toolchain

/-!
# Running programs

The commands that run a program on an environment, and print its value, its cost and a trace. A run may be left to a
machine of another library, of which only the answer is known.
-/

namespace Clvm.Command

/-- A machine of another library, which takes the form and its environment as bytes. -/
structure OtherMachine where
  installed : Bool
  /-- What comes of asking for a run: the bytes of the form and of its environment, the highest cost, and whether unknown
  operators are refused. Nothing but a failure does if the library is not installed. -/
  run : Bytes → Bytes → Int → Bool → Except Error Charged

/-- The other machine where its library is not installed. -/
def OtherMachine.absent : OtherMachine := ⟨false, fun _ _ _ _ => .error .fileNotFound⟩

/-- What is to be run, and what is to be shown. -/
structure Execution where
  dialect : Dialect
  /-- The form that is run on the program and its environment, if it is not the program itself. -/
  wrapper : Option SExp
  program : List Char
  env : List Char
  /-- Program and environment are bytes in hexadecimal. -/
  hex : Bool
  strict : Bool
  limit : Int
  /-- The directories for included files, in order. One that is `none` was left out. -/
  search : List (Option String)
  symbolFile : Option String
  verbose : Bool
  table : Bool
  cost : Bool
  time : Bool
  dump : Bool
  quiet : Bool
  keywords : Bool
  /-- The machine that is asked for. -/
  backend : Option String

namespace Execution

inductive Key where
  | help
  | strict
  | mempool
  | hex
  | stage
  | verbose
  | table
  | cost
  | time
  | limit
  | dump
  | quiet
  | symbols
  | data
  | backend
  | search
deriving DecidableEq

/-- The highest cost if no other is given. -/
def defaultLimit : Int := 11000000000

/-- The operators that a stage stands for. -/
def dialectOf? : String → Option Dialect
  | "0" => some .machine
  | "2" => some .compiler
  | _ => none

/-- A program is run, and its environment may be given. -/
def usage : Usage Key where
  switches :=
    [⟨.help, ["-h", "--help"], .help⟩, ⟨.strict, ["--strict"], .flag⟩, ⟨.mempool, ["--mempool"], .flag⟩,
     ⟨.hex, ["-x", "--hex"], .flag⟩, ⟨.stage, ["-s", "--stage"], .value fun v => (dialectOf? v).isSome⟩,
     ⟨.verbose, ["-v", "--verbose"], .flag⟩, ⟨.table, ["-t", "--table"], .flag⟩, ⟨.cost, ["-c", "--cost"], .flag⟩,
     ⟨.time, ["--time"], .flag⟩, ⟨.limit, ["-m", "--max-cost"], .value fun v => (Text.integer? v.toList).isSome⟩,
     ⟨.dump, ["-d", "--dump"], .flag⟩, ⟨.quiet, ["--quiet"], .flag⟩,
     ⟨.symbols, ["-y", "--symbol-table"], .value fun _ => true⟩, ⟨.data, ["-n", "--no-keywords"], .flag⟩,
     ⟨.backend, ["--backend"], .value fun _ => true⟩, ⟨.search, ["-i", "--include"], .value fun _ => true⟩]
  most := some 2
  accepts := FileName.isAllowed

/-- The program and the environment among the operands. A mark `--` that stands for the environment leaves it
out. -/
def programAndEnv? : List String → Option (String × Option String)
  | [program] => some (program, none)
  | [program, env] => some (program, if env = "--" then none else some env)
  | _ => none

/-- The dialect of the stage that was given, if one was. -/
def chosenDialect (dialect : Dialect) : Option (Option String) → Except Error Dialect
  | none => .ok dialect
  | some none => .error .noStage
  | some (some stage) => .ok ((dialectOf? stage).getD dialect)

/-- The limit that was given, if one was. One that was left out sets none. -/
def chosenLimit : Option (Option String) → Int
  | none => defaultLimit
  | some none => 0
  | some (some limit) => (Text.integer? limit.toList).getD defaultLimit

/-- The execution of a program in a dialect, with what options ask for. -/
def ofOptions (dialect : Dialect) (wrapper : SExp) (program env : List Char) (args : Arguments Key) : Execution where
  dialect
  wrapper := if dialect = .compiler then some wrapper else none
  program
  env
  hex := args.has .hex
  strict := args.has .strict || args.has .mempool
  limit := chosenLimit (args.value? .limit)
  search := args.values .search
  symbolFile := (args.value? .symbols).join
  verbose := args.has .verbose
  table := args.has .table
  cost := args.has .cost
  time := args.has .time
  dump := args.has .dump
  quiet := args.has .quiet
  keywords := !args.has .data
  backend := (args.value? .backend).join

/-- The execution that arguments ask for. `wrapper` is what the compiler's operators are used with. -/
def ofArguments? (dialect : Dialect) (wrapper : SExp) (store : Store) (args : Arguments Key) :
    Option (Except Error Execution) := do
  let (program, env) ← programAndEnv? args.operands
  let env := (env.map (operandText store)).getD []
  return (chosenDialect dialect (args.value? .stage)).map fun dialect =>
    ofOptions dialect wrapper (operandText store program) env args

/-- The bytes of a tree given in hexadecimal or as source. -/
def inputBytes (x : Execution) (text : List Char) : Except Error Bytes :=
  if x.hex then
    match Text.bytesOfHex? text with
    | some b => .ok b
    | none => .error .notHex
  else do return (← SExp.ofSource text).serialize

/-- The environment; none given is the empty one. -/
def envBytes (x : Execution) : Except Error Bytes :=
  if x.env.isEmpty then .ok SExp.nil.serialize else x.inputBytes x.env

/-- The form to run and its environment. With a wrapper both inputs are read as one pair, so that bytes left over from
the first become part of the second. -/
def subject (x : Execution) (program env : Bytes) : Except Error (SExp × SExp) := do
  match x.wrapper with
  | some wrapper => return (wrapper, ← SExp.deserialize (0xff :: program ++ env))
  | none => return (← SExp.deserialize program, ← SExp.deserialize env)

/-- The same as bytes. -/
def subjectBytes (x : Execution) (program env : Bytes) : Bytes × Bytes :=
  match x.wrapper with
  | some wrapper => (wrapper.serialize, 0xff :: program ++ env)
  | none => (program, env)

/-- Whether a run is left to the other machine. If neither machine is asked for, it is one at the stage of the machine's
own operators, without symbols and without a trace, and the other machine is there. -/
def usesOther (x : Execution) (other : OtherMachine) : Bool :=
  match x.backend with
  | some "rust" => true
  | some "python" => false
  | _ => other.installed && x.dialect = .machine && x.symbolFile.isNone && !x.verbose && !x.table

/-- The symbols of the symbol file. -/
def symbols? (x : Execution) : Action Session (Option Symbols) :=
  match x.symbolFile with
  | none => return none
  | some name => do
    match Text.Json.parse? (← Session.onStore (·.read (FileName.plain name))) with
    | some content => return some ⟨content⟩
    | none => throw .notJson

/-- The forms to record: those that have symbols, or all of them if there are no symbols. -/
def watched (x : Execution) (symbols : Option Symbols) : Except Error (SExp → Bool) :=
  match symbols with
  | none => .ok fun _ => x.verbose || x.table
  | some s =>
    if s.isEmpty then .ok fun _ => true
    else do
      let known ← s.hashes
      return fun form => known (Bytes.toHex form.treeHash)

/-- The directories that can be searched: those before one that was left out. -/
def directories (x : Execution) : List String := (x.search.takeWhile (·.isSome)).filterMap id

/-- What comes of a run. A search that does not end before a directory that was left out fails there. -/
def settle (x : Execution) (outcome : Except Error Charged) : Except Error Charged :=
  match outcome with
  | .error (.eval (.cannotOpen _) _) => if x.search.contains none then .error .namelessDirectory else outcome
  | _ => outcome

variable [Curve]

/-- Runs the program with the machine here, and gives the trace as well. -/
def runOwn (x : Execution) (symbols : Option Symbols) (program env : Bytes) : Action Session Machine.Run := fun s =>
  match x.subject program env, x.watched symbols with
  | .ok (form, env), .ok watch =>
    let (result, s') := x.dialect.run x.directories x.limit x.strict watch form env s
    .ok { result with outcome := x.settle result.outcome } s'
  | .error e, _ => .ok ⟨.error e, #[]⟩ s
  | .ok _, .error e => .ok ⟨.error e, #[]⟩ s

/-- Runs the program. The other machine gives no trace. -/
def run (x : Execution) (other : OtherMachine) (symbols : Option Symbols) (program env : Bytes) :
    Action Session Machine.Run :=
  if x.usesOther other then
    let (form, env) := x.subjectBytes program env
    return ⟨other.run form env x.limit x.strict, #[]⟩
  else x.runOwn symbols program env

def names (x : Execution) : SExp.Names := if x.keywords then SExp.keywordNames else SExp.noNames

/-- The lines on cost and time. How long something took is not part of what is modelled, and is written as `T`. -/
def measures (x : Execution) (cost : Nat) : Except Error (List (List Char)) := do
  let cost ← if x.cost then do pure ["cost = ".toList ++ (← Text.boundedInteger cost)] else pure []
  let times :=
    if !x.time then []
    else if x.hex then ["read_hex: T", "run_program: T"]
    else ["assemble_from_ir: T", "to_sexp_f: T", "run_program: T"]
  return cost ++ times.map String.toList

/-- A value as it is shown. -/
def valueText (x : Execution) (value : SExp) : List Char :=
  if x.dump then Bytes.toHex value.serialize
  else if x.quiet then []
  else value.toSourceWith x.names

/-- Prints what came of a run. An evaluation that failed is reported; any other failure is printed and
then passed on. -/
def printOutcome (x : Execution) (outcome : Except Error Charged) : Action Console (Except Error Ending) := do
  match (do
    let (cost, value) ← outcome
    return (← x.measures cost, value)) with
  | .ok (lines, value) =>
    lines.forM printLine
    printLine (x.valueText value)
    return .ok .success
  | .error (.eval fault tree) =>
    printLine ("FAIL: ".toList ++ fault.message.toList ++ ' ' :: tree.toSourceWith x.names)
    return .ok .failure
  | .error e =>
    printLine (e.message?.getD "").toList
    return .error e

/-- Prints the traces that are asked for. -/
def printTraces (x : Execution) (symbols : Option Symbols) (entries : List Machine.Entry) :
    Action Console Unit := do
  if x.verbose || (symbols.map (!·.isEmpty)).getD false then
    printLine []
    printTrace symbols entries
  if x.table then printTable symbols entries

/-- Runs a program of which the bytes are known. -/
def performOn (x : Execution) (other : OtherMachine) (program : Bytes) : Action Console Ending := do
  let env ← x.envBytes
  let symbols ← inSession x.symbols?
  let run ← inSession (x.run other symbols program env)
  let ending ← x.printOutcome run.outcome
  x.printTraces symbols run.log.toList
  ending

/-- Runs a program. Source that cannot be read is reported. -/
def perform (x : Execution) (other : OtherMachine) : Action Console Ending :=
  match x.inputBytes x.program with
  | .ok program => x.performOn other program
  | .error (.source f) => do
    printLine ("FAIL: ".toList ++ f.message.toList)
    return .failure
  | .error e => throw e

end Execution
end Clvm.Command
