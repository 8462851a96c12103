import Clvm.Benchmark.Bench
import Clvm.Benchmark.Counters
import Clvm.Random.Sample

/-!
# Measuring samples

The random programs are run to compare their costs with the times they take.
-/

namespace Clvm.Benchmark

open Clvm.Random (Sample)

/-- The text of the plot of times by cost. -/
def costPlot : String :=
  "set output \"mixed-programs/costs.png\"\n" ++
  "set datafile separator \",\"\n" ++
  "set term png size 1400,900 small\n" ++
  "set termoption enhanced\n" ++
  "set ylabel \"run-time (s)\"\n" ++
  "set xlabel \"cost\"\n" ++
  "set xrange [0:*]\n" ++
  "set yrange [0:*]\n" ++
  "plot \"mixed-programs/results.csv\" using 1:2 with points\n"

/-- Runs a sample and gives its line of results. -/
def measureSample (reports : Reports) (number : Nat) (file : String) : Action Bench String := do
  printLine (counterText number ++ ": ".toList ++ file.toList)
  let report ← runFile reports file
  let counters ← Counters.ofLines (← Counters.reportLines report)
  return String.ofList ((← counters.valueOf "cost") ++ ',' :: (← counters.valueOf "run_program") ++ ['\n'])

/-- Runs all samples, and plots their times by their costs. -/
def measureSamples (reports : Reports) : Action Bench Unit := do
  let results := Sample.directory ++ "/results.csv"
  let plot := Sample.directory ++ "/render.gnuplot"
  inSession (Session.writeFile results "")
  inSession (Session.writeFile plot costPlot)
  let names := listing (← get).session.store Sample.directory "" ".clvm"
  names.zipIdx.forM fun (name, i) => do
    let line ← measureSample reports i (Sample.directory ++ "/" ++ name)
    inSession (Session.appendToFile results line)
  command ("gnuplot " ++ plot)

end Clvm.Benchmark
