import Clvm.Benchmark.Bench
import Clvm.Benchmark.Counters

/-!
# Measuring the suite

Every program of the suite is run, and its counters are added to a file of results for its operator and
value size. Programs of an operator that has results already are left out, unless all are asked for. After each directory
its results are plotted.
-/

namespace Clvm.Benchmark

/-- What is carried from one directory to the next. -/
structure Progress where
  /-- How many programs there have been. -/
  count : Nat
  /-- The directory of the last program. -/
  folder : Option String
  /-- The files of results in use, in order. -/
  results : List String

/-- The operators that have results in a directory. -/
def measured (store : Store) (directory : String) : Except Error (List (List Char)) :=
  (listing store directory "" ".csv").mapM fun name =>
    match (Text.splitOn '-' name.toList)[1]? with
    | some operator => .ok operator
    | none => .error .missingColumn

/-- Reads a report line by line; lines that cannot be read are shown. -/
def readLeniently (lines : List (List Char)) : Action Bench Counters :=
  lines.foldlM (fun c line =>
    match c.addLine line with
    | .ok c => return c
    | .error _ => do
      printLine "too many values to unpack (expected 2)".toList
      printLine ("ERROR parsing: ".toList ++ line)
      return c) []

/-- The line of results for some counters and a number of operations. -/
def resultLine (c : Counters) (operations : List Char) : Except Error (List Char) := do
  let values ← ["cost", "assemble_from_ir", "to_sexp_f", "run_program"].mapM c.valueOf
  return Text.join [','] (values ++ [operations]) ++ ['\n']

def resultHeader : String := "#cost,assemble_from_ir,to_sexp_f,run_program,multiplier\n"

/-- Runs a program, or only notes where its results belong if it has been measured before. -/
def measureFile (reports : Reports) (directory : String) (skip : Bool) (p : Progress) (name : String) :
    Action Bench Progress := do
  let file := directory ++ "/" ++ name
  let counters ← if skip then pure [] else do
    printLine (counterText p.count ++ ": ".toList ++ file.toList)
    let report ← runFile reports file
    let counters ← readLeniently (← Counters.reportLines report)
    printLine counters.toText
    pure counters
  let parts := Text.splitOn '-' name.toList
  let subject := String.ofList (Text.join ['-'] parts.dropLast)
  let results := directory ++ "/results-" ++ subject ++ ".csv"
  let isNew := !p.results.contains results
  if !skip then
    if isNew then inSession (Session.appendToFile results resultHeader)
    let operations := ((parts.getLast?).getD []).takeWhile (· ≠ '.')
    let line ← resultLine counters operations
    inSession (Session.appendToFile results (String.ofList line))
  return { count := p.count + 1, folder := some directory,
           results := if isNew then p.results ++ [results] else p.results }

/-- The text of a plot of results. -/
def timingPlot (directory : String) (results : List String) : String :=
  let curve := fun (file : String) (color : Nat) =>
    "\"" ++ file ++ "\" using 5:4 with points lc " ++ toString color ++ " title \"" ++ subjectOf file ++ "\"" ++
      (if color + 1 = results.length then "" else ", \\") ++ "\n"
  "set output \"" ++ directory ++ "/timings.png\"\n" ++
  "set datafile separator \",\"\n" ++
  "set term png size 1400,900 small\n" ++
  "set termoption enhanced\n" ++
  "set ylabel \"run-time (s)\"\n" ++
  "set xlabel \"number of ops\"\n" ++
  "set xrange [0:*]\n" ++
  "set yrange [0:0.3]\n" ++
  "plot " ++ String.join (results.zipIdx.map fun (file, color) => curve file color)

/-- Measures the programs of a directory and plots their results. A directory without programs is plotted where the
last program was. -/
def measureDirectory (reports : Reports) (all : Bool) (p : Progress) (name : String) : Action Bench Progress := do
  let here := directory ++ "/" ++ name
  let done ← measured (← get).session.store here
  let programs := listing (← get).session.store here "" ".clvm"
  let p ← programs.foldlM (fun p program =>
    let skip := !all && done.contains (program.toList.takeWhile (· ≠ '-'))
    measureFile reports here skip p program) p
  match p.folder with
  | none => throw .noPrograms
  | some folder =>
    let plot := folder ++ "/render-timings.gnuplot"
    inSession (Session.writeFile plot (timingPlot here p.results))
    command ("gnuplot " ++ plot)
    return { p with results := [] }

/-- Measures the suite. -/
def measureSuite (reports : Reports) (all : Bool) : Action Bench Unit := do
  let names := listing (← get).session.store directory "" ""
  let _ ← names.foldlM (measureDirectory reports all) ⟨0, none, []⟩

end Clvm.Benchmark
