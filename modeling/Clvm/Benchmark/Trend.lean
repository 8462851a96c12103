import Clvm.Benchmark.Bench
import Clvm.Benchmark.Fit
import Clvm.Text.Number

/-!
# Trends

How the time of a run grows with the number of operations, as a line through the results of each file.
-/

namespace Clvm.Benchmark

/-- The number in a column. -/
def column (columns : List (List Char)) (i : Nat) : Except Error Text.Number :=
  match columns[i]? with
  | none => .error .missingColumn
  | some text =>
    match Text.Number.read? text with
    | some n => .ok n
    | none => .error .badColumn

/-- The number of operations and the time in a line of results. -/
def pointOf (line : List Char) : Except Error (Text.Number × Text.Number) := do
  let columns := Text.splitOn ',' line
  let time ← column columns 3
  return (← column columns 4, time)

/-- All points in a file of results; lines that start with a number sign are comments. -/
def pointsOf (text : List Char) : Except Error (List (Text.Number × Text.Number)) :=
  ((Text.lines text).filter fun line => line.head? ≠ some (Char.ofNat 35)).mapM pointOf

/-- The line through points, all of which must be finite. -/
def trendOf (points : List (Text.Number × Text.Number)) : Except Error Line :=
  let finite := points.filterMap fun
    | (.finite x, .finite y) => some (x, y)
    | _ => none
  match if finite.length = points.length then Line.fitWithoutOutliers? finite else none with
  | some l => .ok l
  | none => .error .noFit

/-- A text at the right of a field of thirty characters. -/
def field (text : List Char) : List Char := List.replicate (30 - text.length) ' ' ++ text

/-- What is printed about a trend, in millionths. -/
def trendLine (subject : String) (l : Line) : List Char :=
  field subject.toList ++ ": ".toList ++ Text.fixed 3 (l.slope * 1000000) ++ " (".toList ++
    Text.fixed 3 (l.offset * 1000000) ++ [')']

/-- A trend as a curve of a plot. -/
def trendCurve (subject : String) (l : Line) (color : Nat) : List Char :=
  "x*".toList ++ Text.fixed 9 l.slope ++ '+' :: Text.fixed 9 l.offset ++ " title \"".toList ++ subject.toList ++
    "\" lc ".toList ++ Text.natural color ++ ", \\\n".toList

/-- What the plot of the trends of a directory begins with. -/
def trendPlotHead (directory : String) : String :=
  "set output \"" ++ directory ++ "/timing-trends.png\"\n" ++
  "set term png size 1400,900 small\n" ++
  "set termoption enhanced\n" ++
  "set ylabel \"run-time (s)\"\n" ++
  "set xlabel \"number of ops\"\n" ++
  "set xrange [0:3000]\n" ++
  "set yrange [0:0.02]\n" ++
  "set datafile separator \",\"\n" ++
  "plot "

/-- Prints the trend of a file of results, and gives its curve. -/
def trendOfFile (file : String) (color : Nat) : Action Bench (List Char) := do
  let text ← inSession (Session.onStore (·.read file))
  let l ← trendOf (← pointsOf text)
  printLine (trendLine (subjectOf file) l)
  return trendCurve (subjectOf file) l color

/-- Prints and plots the trends of a directory. -/
def trendsOfDirectory (name : String) : Action Bench Unit := do
  let here := directory ++ "/" ++ name
  let plot := here ++ "/render-trends.gnuplot"
  inSession (Session.writeFile plot "")
  printLine "microseconds per operation".toList
  let files := listing (← get).session.store here "results-" ".csv"
  let curves ← files.zipIdx.mapM fun (file, color) => trendOfFile (here ++ "/" ++ file) color
  inSession (Session.writeFile plot (trendPlotHead here ++ String.ofList curves.flatten ++ "y=0\n"))
  command ("gnuplot " ++ plot ++ " 2>/dev/null")

/-- Prints and plots all trends. -/
def showTrends : Action Bench Unit := do
  (listing (← get).session.store directory "" "").forM trendsOfDirectory

end Clvm.Benchmark
