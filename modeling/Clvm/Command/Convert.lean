import Clvm.Assembler
import Clvm.Command.Arguments
import Clvm.Command.Console
import Clvm.Error.Message
import Clvm.Hash.Sha256
import Clvm.SExp.Serial
import Clvm.Text.Hex

/-!
# Conversions between source and bytes

The commands that assemble, disassemble and read source text.
-/

namespace Clvm.Command

/-- Which way programs are converted. -/
inductive Conversion where
  /-- From source to hexadecimal bytes. -/
  | assemble
  /-- From hexadecimal bytes to source. -/
  | disassemble
deriving DecidableEq, Repr

namespace Conversion

inductive Key where
  | help
  | hash
deriving DecidableEq

/-- Any number of programs can be converted. -/
def usage : Usage Key where
  switches := [⟨.help, ["-h", "--help"], .help⟩, ⟨.hash, ["-H", "--script-hash"], .flag⟩]
  most := none
  accepts := FileName.isAllowed

/-- The program that a text means. The message about source text that cannot be read is printed,
and there is no program then. -/
def program? (c : Conversion) (text : List Char) : Action Console (Option SExp) :=
  match c with
  | assemble =>
    match SExp.ofSource text with
    | .ok t => return some t
    | .error (.source f) => do
      printLine f.message.toList
      return none
    | .error e => throw e
  | disassemble =>
    match Text.bytesOfHex? text with
    | some b => do return some (← SExp.deserialize b)
    | none => throw .notHex

/-- A program in the notation it is converted to. -/
def text (c : Conversion) (program : SExp) : List Char :=
  match c with
  | assemble => Bytes.toHex program.serialize
  | disassemble => program.toSource

/-- Converts one program; a lone minus sign is the standard input. -/
def convert (c : Conversion) (hashOnly : Bool) (operand : List Char) : Action Console Unit := do
  let source ← if operand = ['-'] then takeInput else pure operand
  match ← c.program? source with
  | some program => printLine (if hashOnly then Bytes.toHex program.treeHash else c.text program)
  | none => if hashOnly then throw .nothingToHash

/-- Converts programs one after the other. -/
def convertAll (c : Conversion) (hashOnly : Bool) (operands : List (List Char)) : Action Console Ending := do
  operands.forM (c.convert hashOnly)
  return .success

end Conversion

/-- Prints the bytes of the syntax node of a text. -/
def printNode (source : List Char) : Action Console Ending := do
  printLine (Bytes.toHex (← Node.read source).serialize)
  return .success

end Clvm.Command
