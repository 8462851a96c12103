import Clvm.Random.Program
import Clvm.Random.Twister
import Clvm.Session

/-!
# Sample programs

A seed gives a sample: a large random program and a tree to run it on, each in a file of its own.
-/

namespace Clvm.Random

structure Sample where
  program : List Char
  env : List Char
deriving DecidableEq, Repr

namespace Sample

/-- The directory of samples. -/
def directory : String := "mixed-programs"

/-- A program for environments of some depth, and such an environment. -/
def draw {σ : Type} [Source σ] : Draw σ Sample := do
  let envDepth ← between 1 10
  let depth ← between 16 20
  let program ← expression depth envDepth .anything
  return ⟨program, ← tree envDepth⟩

/-- The sample of a seed. -/
def ofSeed (seed : Int) : Sample := (draw.run (Twister.ofSeed seed)).1

/-- A number in hexadecimal, with zeros before it and after its sign up to a width of eight. -/
def seedText (seed : Int) : List Char :=
  let ds := Nat.toDigits 16 seed.natAbs
  if seed < 0 then '-' :: (List.replicate (7 - ds.length) '0' ++ ds)
  else List.replicate (8 - ds.length) '0' ++ ds

/-- The name of a sample's file of some type. -/
def fileName (seed : Int) (type : String) : String :=
  directory ++ "/mixed-" ++ String.ofList (seedText seed) ++ "." ++ type

/-- Writes the sample of a seed that is given as text, and says what the seed is. -/
def write (seed : List Char) : Action Session (List Char) := do
  match Text.integer? seed with
  | none => throw .notANumber
  | some seed =>
    Session.makeDirectory directory
    let sample := ofSeed seed
    Session.writeFile (fileName seed "clvm") (String.ofList sample.program)
    Session.writeFile (fileName seed "env") (String.ofList sample.env)
    return "seed: ".toList ++ Text.integer seed ++ ['\n']

end Sample
end Clvm.Random
