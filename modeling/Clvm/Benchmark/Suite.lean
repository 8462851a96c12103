import Clvm.Benchmark.Program
import Clvm.Session

/-!
# The benchmark suite

Families of benchmarks that differ in the size of their values and in how often they do something. Every
benchmark is written to a file, in the directory of the operator it is about.
-/

namespace Clvm.Benchmark

open Clvm.Random (Source Draw)

/-- The sizes of a family: how often, from two on, and with values of which size. -/
structure Extent where
  stop : Int
  step : Nat
  sizes : List Int
deriving DecidableEq, Repr

namespace Extent

/-- The beginnings of names that fix the extent, the first that fits. -/
def byBeginning : List (String × Extent) :=
  [("mul_nest1", ⟨3000, 300, [1, 25, 50, 100, 200, 400, 600, 800, 1000]⟩),
   ("mul", ⟨3000, 50, [1, 25, 50, 100, 200, 300, 400, 500, 600, 700, 800, 900, 1000, 1100, 1200, 1300, 1400]⟩),
   ("cons-", ⟨3000, 40, [1]⟩), ("lookup", ⟨3000, 40, [2]⟩), ("point_add", ⟨300, 4, [48]⟩),
   ("listp", ⟨3000, 40, [1]⟩), ("first", ⟨3000, 40, [1]⟩), ("rest", ⟨3000, 40, [1]⟩), ("if-", ⟨3000, 40, [1]⟩)]

/-- The text before the first separator. -/
def before (sep : Char) (name : String) : List Char := name.toList.takeWhile (· ≠ sep)

/-- The extent of the family that a name belongs to. -/
def ofName (name : String) : Extent :=
  if "_empty".toList.isSuffixOf (before '-' name) then ⟨3000, 40, [1]⟩
  else
    match byBeginning.find? fun (start, _) => start.toList.isPrefixOf name.toList with
    | some (_, extent) => extent
    | none => ⟨3000, 40, [1, 128, 1024]⟩

/-- The extent cut down to a lower stop and fewer sizes. A negative number of sizes is how many are left
out. -/
def limit (stop sizes : Int) (e : Extent) : Extent :=
  { e with
    stop := min e.stop stop
    sizes := if 0 ≤ sizes then e.sizes.take sizes.toNat else e.sizes.take (e.sizes.length - sizes.natAbs) }

/-- How often the benchmarks of a family do something. -/
def counts (e : Extent) : List Int :=
  (List.range (((e.stop - 2).toNat + (e.step - 1)) / e.step)).map fun i => 2 + Int.ofNat (i * e.step)

end Extent

/-- Benchmarks by how often they do something and by the size of their values. -/
abbrev Family (σ : Type) := Int → Int → Draw σ Benchmark

/-- A point to add. -/
def somePoint : List Char :=
  "0xb3b8ac537f4fd6bde9b26221d49b54b17a506be147347dae5d081c0a6572b611d8484e338f3432971a9823976c6a232b".toList

/-- All families, in the order in which they are written. -/
def families {σ : Type} [Source σ] : List (Family σ) :=
  let calls := fun operator subject arity n size => calls n operator size subject arity
  let operands := fun operator subject n size => operands n operator size subject
  let nested := fun operator subject arity n size => nested n operator size subject arity
  let shifts := fun operator subject n size => nestedFirst n operator size 1 subject 2
  let fixed := fun (b : Int → Option Benchmark) n (_ : Int) => pure ((b n).getD (closed "" []))
  [calls "concat" "concat" 2, operands "concat" "concat",
   calls "divmod" "divmod" 2, calls "/" "div" 2,
   operands "+" "plus", calls "+" "plus" 2, calls "+" "plus_empty" 0,
   operands "-" "minus", calls "-" "minus" 2, calls "-" "minus_empty" 0,
   operands "logand" "logand", calls "logand" "logand" 2, calls "logand" "logand_empty" 0,
   operands "logior" "logior", calls "logior" "logior" 2, calls "logior" "logior_empty" 0,
   operands "logxor" "logxor", calls "logxor" "logxor" 2, calls "logxor" "logxor_empty" 0,
   nested "lognot" "lognot" 1, nested "not" "not" 1,
   nested "any" "any" 2, operands "any" "any",
   nested "all" "all" 2, operands "all" "all",
   shifts "lsh" "lsh", shifts "ash" "ash",
   calls "=" "eq" 2, calls ">" "gr" 2, calls ">s" "grs" 2,
   nested "c" "cons" 2,
   fixed fun n => nestedOf n "point_add" somePoint "point_add" 2,
   fixed fun n => operandsOf n "point_add" somePoint "point_add",
   calls "sha256" "sha" 1, calls "sha256" "sha_empty" 0, operands "sha256" "sha",
   calls "pubkey_for_exp" "pubkey" 1,
   fun n _ => lookup n, fun n _ => lookups n,
   calls "strlen" "strlen" 1,
   calls "*" "mul" 2, fun n size => nestedOnes n "*" size "mul" 2, calls "*" "mul_empty" 0,
   calls "l" "listp" 1,
   fun n _ => pure (callsOnList n "f" "first"), fun n _ => pure (lists n),
   fun n _ => pure (callsOnList n "r" "rest"),
   fun n _ => pure (choices n)]

/-- The directory of all benchmarks. -/
def directory : String := "test-programs"

/-- The directory for what a name is about. -/
def folderOf (name : String) : String :=
  directory ++ "/" ++ String.ofList ((Extent.before '-' name).takeWhile (· ≠ '_'))

/-- The benchmarks of a family, and the directory they go to. One benchmark more is drawn first, to learn
the name of the family. -/
def drawFamily {σ : Type} [Source σ] (limit : Extent → Extent) (family : Family σ) :
    Draw σ (String × List Benchmark) := do
  let name := (← family 0 1).name
  let extent := limit (Extent.ofName name)
  let benchmarks ← extent.sizes.mapM fun size => extent.counts.mapM fun n => family n size
  return (folderOf name, benchmarks.flatten)

/-- Writes a benchmark into a directory, as two files. -/
def write (folder : String) (b : Benchmark) : Action Session Unit := do
  Session.writeFile (folder ++ "/" ++ b.name ++ ".clvm") (String.ofList b.program)
  Session.writeFile (folder ++ "/" ++ b.name ++ ".env") (String.ofList b.env)

/-- Writes the benchmark of applications inside each other, under a name. -/
def writeApplications (n : Int) (name : String) : Action Session Unit := do
  let folder := directory ++ "/" ++ name
  Session.makeDirectory folder
  write folder (closed (name ++ "-" ++ String.ofList (Text.integer n)) (applications n))

/-- Writes all benchmarks of the suite. -/
def writeAll {σ : Type} [Source σ] (stop sizes : Int) (source : σ) : Action Session Unit := do
  let (drawn, _) := (families.mapM (drawFamily (Extent.limit stop sizes))).run source
  Session.makeDirectory directory
  drawn.forM fun (folder, benchmarks) => do
    Session.makeDirectory folder
    benchmarks.forM (write folder)
  writeApplications (min 1000 stop) "apply"

end Clvm.Benchmark
