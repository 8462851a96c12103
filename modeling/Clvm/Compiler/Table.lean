import Clvm.Compiler.Word
import Clvm.SExp.Access

/-!
# Macro tables and symbol tables

Both are trees: lists of `(name value)`. They are read entry by entry, so a malformed entry matters only
if the search comes to it. The names of functions are looked up in another reading of the table, in which
a dotted end counts as a last item of the table, of an entry and of a value.
-/

namespace Clvm.Compiler

/-- The value of a symbol. -/
def lookupSymbol (name : Bytes) : SExp → Except Error (Option SExp)
  | .atom [] => .ok none
  | .atom b => .error (.eval .firstOfAtom (.atom b))
  | .pair entry more => do
    let symbol ← entry.first
    let v ← (← entry.rest).first
    if symbol = .atom name then return some v else lookupSymbol name more

/-- The code of a macro. -/
def lookupMacro (name : Bytes) : SExp → Except Error (Option SExp)
  | .atom [] => .ok none
  | .atom b => .error (.eval .firstOfAtom (.atom b))
  | .pair entry more => do
    if (← entry.first) = .atom name then return some (← (← entry.rest).first)
    else lookupMacro name more

/-- The items of a list, with a dotted end as the last. -/
def looseItems : SExp → List SExp
  | .atom [] => []
  | .atom b => [.atom b]
  | .pair x y => x :: looseItems y

mutual

/-- Dotted ends made items, in every list of two pairs or more. -/
def undot : SExp → SExp
  | .atom b => .atom b
  | .pair x (.atom b) => .pair (undot x) (.atom b)
  | .pair x (.pair y z) => .pair (undot x) (undotItems (.pair y z))

/-- The items of a list, with a dotted end as the last, as a list. -/
def undotItems : SExp → SExp
  | .atom [] => .nil
  | .atom b => .pair (.atom b) .nil
  | .pair x y => .pair (undot x) (undotItems y)

end

/-- How a symbol table lets an operator be called. -/
inductive Callee where
  /-- As an operator of the machine. -/
  | operator
  /-- As the function whose code a program gives. -/
  | function (code : SExp)
deriving DecidableEq, Repr

/-- Name and value of an entry, which has exactly two items. An entry that is an atom of two bytes has a name
that is no atom. -/
def entryParts : SExp → Except Error (Option (SExp × SExp))
  | .atom b => if b.length = 2 then .ok none else .error .notAnEntry
  | t =>
    match looseItems t with
    | [symbol, v] => .ok (some (symbol, undot v))
    | _ => .error .notAnEntry

/-- Searches entries for an operator. -/
def findCallee (name : Bytes) : List SExp → Except Error (Option Callee)
  | [] => .ok none
  | entry :: more => do
    match ← entryParts entry with
    | none => findCallee name more
    | some (symbol, v) =>
      if symbol = .atom Word.anyOperator then return some .operator
      else if symbol = .atom name then return some (.function v)
      else findCallee name more

/-- How a symbol table lets an operator be called, if it does. -/
def lookupCallee (name : Bytes) : SExp → Except Error (Option Callee)
  | .atom [] => .ok none
  | .atom _ => .error .notATable
  | table => findCallee name (looseItems table)

end Clvm.Compiler
