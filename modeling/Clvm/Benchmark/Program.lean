import Clvm.Random.Program

/-!
# Benchmark programs

Programs that do one thing a number of times, on random values of a given size. Which operator, which
size and how often stand in the name of a benchmark.
-/

namespace Clvm

/-- A program with an environment, and its name. -/
structure Benchmark where
  name : String
  program : List Char
  env : List Char
deriving DecidableEq, Repr

namespace Benchmark

open Clvm.Random (Source Draw bits times quoted)

variable {σ : Type} [Source σ]

/-- A value of so many bytes, none of which is zero. -/
def value (size : Int) : Draw σ (List Char) := do
  let bytes ← times size.toNat (bits 7)
  return '0' :: 'x' :: bytes.flatMap fun b => Random.hexByte (2 * b + 1)

/-- A value as a program. -/
def constant (size : Int) : Draw σ (List Char) := quoted <$> value size

def closing (n : Int) : List Char := List.replicate n.toNat ')'

/-- The text repeated. -/
def repeated (n : Int) (text : List Char) : List Char := (List.replicate n.toNat text).flatten

/-- The name of a benchmark: what it is about, the size of its values and how often it does it. -/
def title (subject : String) (size n : Int) : String :=
  subject ++ "-" ++ String.ofList (Text.integer size) ++ "-" ++ String.ofList (Text.integer n)

/-- A benchmark that needs no environment. -/
def closed (name : String) (program : List Char) : Benchmark := ⟨name, program, "()".toList⟩

/-- One call with many operands. -/
def operands (n : Int) (operator : String) (size : Int) (subject : String) : Draw σ Benchmark := do
  let values ← times n.toNat (constant size)
  return closed (title (subject ++ "_args") size n)
    ('(' :: operator.toList ++ values.flatMap (' ' :: ·) ++ [')'])

/-- Calls of which the last operand is the next call, and the others are random. -/
def nested (n : Int) (operator : String) (size : Int) (subject : String) (arity : Int) : Draw σ Benchmark := do
  let heads ← times n.toNat do
    let values ← times (arity - 1).toNat (constant size)
    return '(' :: operator.toList ++ ' ' :: values.flatMap (· ++ [' '])
  let last ← constant size
  return closed (title (subject ++ "_nest") size n) (heads.flatten ++ last ++ closing n)

/-- Calls of which the last operand is the next call, and the others are ones. -/
def nestedOnes (n : Int) (operator : String) (size : Int) (subject : String) (arity : Int) :
    Draw σ Benchmark := do
  let head := '(' :: operator.toList ++ ' ' :: repeated (arity - 1) "(q . 1) ".toList
  let last ← constant size
  return closed (title (subject ++ "_nest1") size n) (repeated n head ++ last ++ closing n)

/-- How large a value in source text is. -/
inductive ValueSize where
  | halfBytes (count : Nat)
  | characters (count : Int)
deriving DecidableEq, Repr

namespace ValueSize

/-- The size of a value after `0x`, or between quotes; a lone quote counts as both. -/
def of? (v : List Char) : Option ValueSize :=
  if "0x".toList.isPrefixOf v then some (halfBytes (v.length - 2))
  else if v.head? = some '"' ∧ v.getLast? = some '"' then some (characters (v.length - 2))
  else none

/-- The size without a half byte. -/
def whole : ValueSize → Int
  | halfBytes n => n / 2
  | characters n => n

/-- A number of bytes, with one decimal place. -/
def bytesText (halves : Nat) : List Char :=
  Text.natural (halves / 2) ++ (if halves % 2 = 0 then ".0" else ".5").toList

/-- What is said about a value that has no size. -/
def complaint (v : List Char) : List Char := "don't know how to interpret value: ".toList ++ v ++ ['\n']

end ValueSize

/-- One call with many operands that are all the same value. -/
def operandsOf (n : Int) (operator : String) (v : List Char) (subject : String) : Option Benchmark := do
  let size ← ValueSize.of? v
  return closed (title (subject ++ "_args") size.whole n)
    ('(' :: operator.toList ++ repeated n (' ' :: quoted v) ++ [')'])

/-- Calls of which the last operand is the next call, and the others are the same value. -/
def nestedOf (n : Int) (operator : String) (v : List Char) (subject : String) (arity : Int) :
    Option Benchmark := do
  let size ← ValueSize.of? v
  let head := '(' :: operator.toList ++ ' ' :: repeated (arity - 1) (quoted v ++ [' '])
  return closed (title (subject ++ "_nest") size.whole n) (repeated n head ++ quoted v ++ closing n)

/-- Calls of which the first operand is the next call; the innermost value has one size, and all others
another. -/
def nestedFirst (n : Int) (operator : String) (size others : Int) (subject : String) (arity : Int) :
    Draw σ Benchmark := do
  let first ← constant size
  let tails ← times n.toNat do
    let values ← times (arity - 1).toNat (constant others)
    return values.flatMap (' ' :: ·) ++ [')']
  return closed (title (subject ++ "_nest") size n)
    (repeated n ('(' :: operator.toList ++ [' ']) ++ first ++ tails.flatten)

/-- Lets a path to a number and a tree around it grow step by step. -/
def growLookup : Nat → Nat → List Char → Draw σ (Nat × List Char)
  | 0, path, tree => return (path, tree)
  | d + 1, path, tree => do
    let leg ← bits 1
    let tree := if leg = 0 then '(' :: tree ++ " . 0x1337)".toList else "(0x1337 . ".toList ++ tree ++ [')']
    growLookup d (2 * path + leg) tree

/-- A path to a number, and the tree that it is in. -/
def lookupPair (depth : Int) : Draw σ (List Char × List Char) := do
  let (path, tree) ← growLookup depth.toNat 1 "42".toList
  return (Text.natural path, tree)

/-- One path of some length. -/
def lookup (n : Int) : Draw σ Benchmark := do
  let (path, tree) ← lookupPair n
  return ⟨title "lookup" 2 n, path, tree⟩

/-- A list whose items are given by the text before each. -/
def listOf (items : List (List Char)) : List Char :=
  items.flatMap (fun item => "(c ".toList ++ item ++ [' ']) ++ "()".toList ++ closing items.length

/-- A list of the same short path many times. -/
def lookups (n : Int) : Draw σ Benchmark := do
  let (path, tree) ← lookupPair 1
  return ⟨title "lookup_2" 2 n, listOf (List.replicate n.toNat path), tree⟩

/-- A list of calls. -/
def calls (n : Int) (operator : String) (size : Int) (subject : String) (arity : Int) : Draw σ Benchmark := do
  let items ← times n.toNat do
    let values ← times arity.toNat (constant size)
    return '(' :: operator.toList ++ values.flatMap (' ' :: ·) ++ [')']
  return closed (title subject size n) (listOf items)

/-- A list of calls on the same list. -/
def callsOnList (n : Int) (operator : String) (subject : String) : Benchmark :=
  closed (title subject 1 n)
    (listOf (List.replicate n.toNat ('(' :: operator.toList ++ " (q . (1 2 3)))".toList)))

/-- A list of the same list many times. -/
def lists (n : Int) : Benchmark :=
  closed (title "first_empty" 1 n) (listOf (List.replicate n.toNat "(q . (1 2 3))".toList))

/-- A list of choices whose conditions are false and true in turn. -/
def choices (n : Int) : Benchmark :=
  closed (title "if" 1 n) (listOf ((List.range n.toNat).map fun i =>
    "(i ".toList ++ (if i % 2 = 0 then "()" else "(q . 1)").toList ++ " (q . 1) (q . 2))".toList))

/-- Applications inside each other. -/
def applications (n : Int) : List Char :=
  repeated n "(a (q . (lognot ".toList ++ "(q . 1)".toList ++ repeated n ")) ())".toList

end Benchmark
end Clvm
