import Clvm.Error.Basic
import Clvm.Text.Blank
import Clvm.Text.ByteLiteral
import Clvm.Text.Split

/-!
# Counters

A run of a program reports its cost and times as lines of the form `name: value` or `name = value`. At most
five lines count, and a line without an end does not.
-/

namespace Clvm.Benchmark

/-- The names and values of a report, in the order in which the names came first. -/
abbrev Counters := List (List Char × List Char)

namespace Counters

/-- Sets a counter. -/
def put (name value : List Char) : Counters → Counters
  | [] => [(name, value)]
  | (k, v) :: more => if k = name then (k, value) :: more else (k, v) :: put name value more

/-- The value of a counter. -/
def valueOf (c : Counters) (name : String) : Except Error (List Char) :=
  match c.lookup name.toList with
  | some v => .ok v
  | none => .error .missingCounter

/-- The lines of a report that count. A report in other than ASCII characters is refused. -/
def reportLines (report : List Char) : Except Error (List (List Char)) :=
  if report.all (·.toNat < 128) then .ok ((Text.splitOn '\n' report).dropLast.take 5) else .error .notText

/-- Adds what a line says. -/
def addLine (c : Counters) (line : List Char) : Except Error Counters :=
  match [':', '='].find? line.contains with
  | none => .ok c
  | some sep =>
    match Text.splitOn sep line with
    | [name, value] => .ok (c.put (Text.trim name) (Text.trim value))
    | _ => .error .badCounterLine

/-- A text between quotes. -/
def quoted (cs : List Char) : List Char :=
  (Text.byteLiteral (cs.map fun c => UInt8.ofNat c.toNat)).drop 1

/-- The counters of the lines of a report. -/
def ofLines (lines : List (List Char)) : Except Error Counters := lines.foldlM addLine []

/-- All counters on one line. -/
def toText (c : Counters) : List Char :=
  '\x7b' :: Text.join ", ".toList (c.map fun (k, v) => quoted k ++ ": ".toList ++ quoted v) ++ ['\x7d']

end Counters
end Clvm.Benchmark
