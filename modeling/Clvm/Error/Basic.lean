import Clvm.SExp.Basic

/-!
# Why a computation stops

`Fault` lists the ways in which evaluating a tree fails; such a failure always carries the tree it
is about. `SyntaxFault` lists what is wrong with a text. `Error` joins them with the failures that
have no text of their own, and with `outOfFuel`, which is no answer but the lack of one.
-/

namespace Clvm

/-- Why evaluating a tree failed. Operators are given by the name used in the report. -/
inductive Fault where
  | firstOfAtom
  | restOfAtom
  | pathIntoAtom
  | operatorNotLoneAtom
  | applyArity
  | costExceeded
  | arity (operator : String) (count : Nat)
  | substringArity
  | softforkArity
  | raised
  | onList (operator : String)
  | needsInteger (operator : String)
  | needsInt32 (operator : String)
  | int32TooLong (operator : String)
  | divisionByZero (operator : String)
  | shiftTooLarge
  | substringRange
  | softforkCost
  | reservedOperator
  | invalidOperator
  | unimplementedOperator
  /-- No directory of the search path holds the file; a pair is no file name at all. -/
  | cannotOpen (name : Option Bytes)
  /-- What another library reports. -/
  | reported (text : String)
deriving DecidableEq, Repr

/-- What is wrong with a source text. Offsets count characters. -/
inductive SyntaxFault where
  | missingClose
  | unexpectedEnd
  | illegalDot (offset : Nat)
  | invalidHex (offset : Int) (digits : List Char)
  | unterminatedString (offset : Int) (text : List Char)
  | badNode (node : SExp)
  | quoteArity (form : SExp)
  | unknownOperator (form : SExp)
  | redefined (name : List Char)
  | unknownDeclaration
deriving DecidableEq, Repr

/-- Why a computation stopped without a result. -/
inductive Error where
  | eval (fault : Fault) (tree : SExp)
  | source (fault : SyntaxFault)
  /-- The serialised bytes end too early. -/
  | badEncoding
  /-- A serialised atom announces more bytes than any atom has. -/
  | blobTooLarge
  /-- A pair stands where an atom is needed. -/
  | notAnAtom
  /-- A file opened for writing cannot be given a tree. -/
  | cannotWriteTree
  /-- A byte string is no UTF-8 text. -/
  | notText
  /-- A text is not made of pairs of hexadecimal digits. -/
  | notHex
  /-- A number has more digits than are written. -/
  | tooManyDigits
  /-- A symbol table entry is not a name and a value. -/
  | notAnEntry
  /-- A symbol table is an atom. -/
  | notATable
  /-- A negative number has no place among the paths of its width. -/
  | pathOutOfRange
  /-- The empty list has no tree to pair with. -/
  | emptyHead
  /-- A second declaration without a name. -/
  | namelessTwice
  /-- There is no tree to hash. -/
  | nothingToHash
  | fileNotFound
  /-- A file name holds a zero byte. -/
  | badFileName
  | isADirectory
  | notADirectory
  /-- A file name, or a component of it, is longer than any name there is. -/
  | nameTooLong
  /-- A directory to search has no name. -/
  | namelessDirectory
  /-- A program has no stage to run at. -/
  | noStage
  /-- A symbol file is no JSON text. -/
  | notJson
  /-- A symbol file is JSON, but no table of names. -/
  | notASymbolFile
  /-- A symbol file is a number or truth value, in which nothing can be looked up. -/
  | unsearchable
  /-- The list of extensions holds something else. -/
  | notAnExtension
  /-- An integer was expected. -/
  | notANumber
  /-- A report lacks a counter. -/
  | missingCounter
  /-- There are no programs to measure yet. -/
  | noPrograms
  /-- A name or a line of results has too few parts. -/
  | missingColumn
  /-- A result is no number. -/
  | badColumn
  /-- A line of a report has more than one separator. -/
  | badCounterLine
  /-- No line can be laid through the results. -/
  | noFit
  /-- Points of the curve are not computed here. -/
  | noCurve
  | outOfFuel
deriving DecidableEq, Repr

end Clvm
