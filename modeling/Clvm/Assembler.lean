import Clvm.Node.Reader
import Clvm.Operator.Basic
import Clvm.Text.Decimal

/-!
# Source text and trees

Assembling turns a node into a tree: a symbol that is a keyword becomes its atom, and every other leaf its
value. Disassembling writes a tree as source. There an atom is a keyword where it stands as an operator,
a number if it is a short one, quoted if it is longer and can be printed, and bytes in hexadecimal
otherwise.
-/

namespace Clvm

namespace Node

/-- The tree that a node stands for. A number sign in front of a keyword is left out. -/
def assemble : SExp → Except Error SExp
  | .atom b => .error (.eval .firstOfAtom (.atom b))
  | .pair head v => do
    match ← symbolName? (.pair head v) with
    | some (c :: cs) =>
      match Keyword.toBytes? (if c = '#' then cs else c :: cs) with
      | some b => return .atom b
      | none => return v
    | _ =>
      if ← isKind .cons (.pair head v) then
        match v with
        | .atom b => .error (.eval .firstOfAtom (.atom b))
        | .pair x y => return .pair (← assemble x) (← assemble y)
      else return v

end Node

namespace SExp

/-- The tree of a source text's first expression. -/
def ofSource (source : List Char) : Except Error SExp := do
  Node.assemble (← Node.read source)

/-- The names that operators are written by. -/
abbrev Names := Bytes → Option (List Char)

/-- Operators by their keywords. -/
def keywordNames : Names := fun b => (Keyword.ofBytes? b).map String.toList

/-- Operators as data. -/
def noNames : Names := fun _ => none

/-- The bytes that are printed between double quotes. -/
def isPrintable (x : UInt8) : Bool := 0x20 ≤ x && x ≤ 0x7e && x != 0x22

/-- How an atom is written that is not written by name. -/
def atomKind (b : Bytes) : Node.Kind :=
  if b.length > 2 then if b.all isPrintable then .quotes else .hex
  else if Bytes.ofInt (Bytes.toInt b) = b then .int
  else .hex

/-- The text of an atom that is not written by name. -/
def atomText (b : Bytes) : List Char :=
  match b with
  | [] => "()".toList
  | _ =>
    match atomKind b with
    | .quotes => '"' :: b.map (fun x => Char.ofNat x.toNat) ++ ['"']
    | .int => Text.integer (Bytes.toInt b)
    | _ => "0x".toList ++ Bytes.toHex b

/-- The text of an atom that stands as an operator. -/
def operatorText (names : Names) (b : Bytes) : List Char :=
  match names b with
  | some name => if name = ['.'] then atomText b else name
  | none => atomText b

mutual

/-- The text of a tree that stands where an operator does. -/
def operatorPart (names : Names) : SExp → List Char
  | .atom b => operatorText names b
  | .pair x y => '(' :: operatorPart names x ++ tailText names y

/-- The text that ends a list, from after one of its items on. -/
def tailText (names : Names) : SExp → List Char
  | .atom [] => [')']
  | .atom b => " . ".toList ++ atomText b ++ [')']
  | .pair (.atom b) y => ' ' :: atomText b ++ tailText names y
  | .pair (.pair x x') y => ' ' :: operatorPart names (.pair x x') ++ tailText names y

end

/-- The source text of a tree. -/
def toSourceWith (names : Names) : SExp → List Char
  | .atom b => atomText b
  | .pair x y => operatorPart names (.pair x y)

/-- The source text of a tree, with keywords for operators. -/
def toSource (t : SExp) : List Char := toSourceWith keywordNames t

end SExp
end Clvm
