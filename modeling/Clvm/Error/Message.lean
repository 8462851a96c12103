import Clvm.Assembler
import Clvm.SExp.Serial
import Clvm.Text.ByteLiteral

/-!
# The texts of failures
-/

namespace Clvm

/-- The text of a fault in evaluation. -/
def Fault.message : Fault → String
  | firstOfAtom => "first of non-cons"
  | restOfAtom => "rest of non-cons"
  | pathIntoAtom => "path into atom"
  | operatorNotLoneAtom => "in ((X)...) syntax X must be lone atom"
  | applyArity => "apply requires exactly 2 parameters"
  | costExceeded => "cost exceeded"
  | arity op 1 => op ++ " takes exactly 1 argument"
  | arity op n => op ++ " takes exactly " ++ toString n ++ " arguments"
  | substringArity => "substr takes exactly 2 or 3 arguments"
  | softforkArity => "softfork takes at least 1 argument"
  | raised => "clvm raise"
  | onList op => op ++ " on list"
  | needsInteger op => op ++ " requires int args"
  | needsInt32 op => op ++ " requires int32 args"
  | int32TooLong op => op ++ " requires int32 args (with no leading zeros)"
  | divisionByZero op => op ++ " with 0"
  | shiftTooLarge => "shift too large"
  | substringRange => "invalid indices for substr"
  | softforkCost => "cost must be > 0"
  | reservedOperator => "reserved operator"
  | invalidOperator => "invalid operator"
  | unimplementedOperator => "unimplemented operator"
  | cannotOpen (some name) => "can't open " ++ String.ofList (Text.byteLiteral name)
  | cannotOpen none => "can't open None"
  | reported text => text

/-- The text of a fault in source text. -/
def SyntaxFault.message : SyntaxFault → String
  | missingClose => "missing )"
  | unexpectedEnd => "unexpected end of stream"
  | illegalDot offset => "illegal dot expression at " ++ toString offset
  | invalidHex offset digits =>
    "invalid hex at " ++ toString offset ++ ": 0x" ++ String.ofList digits
  | unterminatedString offset text =>
    "unterminated string starting at " ++ toString offset ++ ": " ++ String.ofList text
  | badNode node => "bad ir format: " ++ String.ofList (Bytes.toHex node.serialize)
  | quoteArity form =>
    "Compilation error while compiling [" ++ String.ofList form.toSource ++
      "]. quote takes exactly one argument."
  | unknownOperator form => "can't compile " ++ String.ofList form.toSource ++ ", unknown operator"
  | redefined name => "symbol \"" ++ String.ofList name ++ "\" redefined"
  | unknownDeclaration => "expected defun, defun-inline, defmacro, or defconstant"

/-- The text of a failure that has one. -/
def Error.message? : Error → Option String
  | eval fault _ => some fault.message
  | source fault => some fault.message
  | badEncoding => some "bad encoding"
  | blobTooLarge => some "blob too large"
  | _ => none

end Clvm
