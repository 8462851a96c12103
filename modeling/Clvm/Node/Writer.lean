import Clvm.Node.Basic
import Clvm.SExp.Serial
import Clvm.Text.Decimal

/-!
# Writing nodes

Each kind of node has a way to be written. A tree that is no node cannot be written, and neither can a
number of too many digits or quoted bytes that are no text.
-/

namespace Clvm.Node

/-- The text of bytes that have to be one. -/
def textOf (b : Bytes) : Except Error (List Char) :=
  match Text.Utf8.decode? b with
  | some cs => .ok cs
  | none => .error .notText

/-- The text of a node that is no list. -/
def writeLeaf (n : SExp) : Except Error (List Char) := do
  let k ← kindNumber n
  if k = Kind.code.number then
    return "CODE[".toList ++ Bytes.toHex (← value n).serialize ++ "]".toList
  else if k = Kind.null.number then return "()".toList
  else
    let b ← bytes n
    if k = Kind.int.number then Text.boundedInteger (Bytes.toInt b)
    else if k = Kind.node.number then
      return "NODE[".toList ++ (← Text.boundedInteger (Bytes.toInt b)) ++ "]".toList
    else if k = Kind.hex.number then return "0x".toList ++ Bytes.toHex b
    else if k = Kind.quotes.number ∨ k = Kind.doubleQuote.number then
      return '"' :: (← textOf b) ++ ['"']
    else if k = Kind.singleQuote.number then return '\'' :: (← textOf b) ++ ['\'']
    else if k = Kind.symbol.number ∨ k = Kind.operator.number then
      match Text.Utf8.decode? b with
      | some cs => return cs
      | none => return "(indecipherable symbol: ".toList ++ Bytes.toHex b ++ ")".toList
    else .error (.source (.badNode n))

mutual

/-- The text of a node. -/
def write : SExp → Except Error (List Char)
  | .atom b => .error (.eval .firstOfAtom (.atom b))
  | .pair head v => do
    if ← isKind .cons (.pair head v) then
      match v with
      | .atom b => .error (.eval .firstOfAtom (.atom b))
      | .pair x y => return '(' :: (← write x) ++ (← writeTail y)
    else writeLeaf (.pair head v)

/-- The text that ends a list, from after one of its items on. -/
def writeTail : SExp → Except Error (List Char)
  | .atom b => .error (.eval .firstOfAtom (.atom b))
  | .pair head v => do
    if ← isKind .null (.pair head v) then return [')']
    else if ← isKind .cons (.pair head v) then
      match v with
      | .atom b => .error (.eval .firstOfAtom (.atom b))
      | .pair x y => return ' ' :: (← write x) ++ (← writeTail y)
    else return " . ".toList ++ (← writeLeaf (.pair head v)) ++ [')']

end

end Clvm.Node
