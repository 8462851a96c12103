import Clvm.Bytes.Integer
import Clvm.SExp.Access
import Clvm.Text.Utf8

/-!
# Syntax nodes

What is read from source text keeps how it was written: a node has a kind, the offset of its text and a
value. Nodes are themselves trees, `((kind . offset) . value)`, or `(kind . value)` when they come from no
text. A cons node's value is a pair of nodes. Nothing forces a tree to be a node, so each part is read
with the failure that a tree of another shape gives.
-/

namespace Clvm.Node

/-- How a piece of source is written. -/
inductive Kind where
  | cons
  | null
  | int
  | hex
  | quotes
  | doubleQuote
  | singleQuote
  | symbol
  | operator
  | code
  | node
deriving DecidableEq, Repr

namespace Kind

/-- The kind's name. -/
def name : Kind → String
  | cons => "CONS"
  | null => "NULL"
  | int => "INT"
  | hex => "HEX"
  | quotes => "QUOTES"
  | doubleQuote => "DOUBLE_QUOTE"
  | singleQuote => "SINGLE_QUOTE"
  | symbol => "SYMBOL"
  | operator => "OPERATOR"
  | code => "CODE"
  | node => "NODE"

/-- Every kind, in order. -/
def all : List Kind :=
  [cons, null, int, hex, quotes, doubleQuote, singleQuote, symbol, operator, code, node]

/-- The text that marks the kind in a node. -/
def tag : Kind → String
  | cons => "CONS"
  | null => "NULL"
  | int => "INT"
  | hex => "HEX"
  | quotes => "QT"
  | doubleQuote => "DQT"
  | singleQuote => "SQT"
  | symbol => "SYM"
  | operator => "OP"
  | code => "CODE"
  | node => "NODE"

/-- The atom that marks the kind. -/
def atom (k : Kind) : Bytes := Text.Utf8.encode k.tag.toList

/-- The number that the mark writes; two atoms of one number mark the same kind. -/
def number (k : Kind) : Int := Bytes.toInt k.atom

/-- The kind of a name. -/
def ofName? (s : String) : Option Kind := all.find? (·.name == s)

/-- The kind of a number. -/
def ofNumber? (i : Int) : Option Kind := all.find? (·.number == i)

end Kind

/-- A node without an offset. -/
def plain (k : Kind) (value : SExp) : SExp := .pair (.atom k.atom) value

/-- A node read at an offset. -/
def located (k : Kind) (offset : Int) (value : SExp) : SExp :=
  .pair (.pair (.atom k.atom) (.ofInt offset)) value

/-- A node, with an offset if there is one. -/
def new (k : Kind) (value : SExp) : Option Int → SExp
  | none => plain k value
  | some offset => located k offset value

/-- The node of an empty list. -/
def null : SExp := plain .null .nil

/-- The node of a list's first node and the node of its rest. -/
def cons (first rest : SExp) (offset : Option Int) : SExp := new .cons (.pair first rest) offset

/-- The node of a list. -/
def list : List SExp → SExp
  | [] => null
  | x :: xs => cons x (list xs) none

/-- The node of a symbol. -/
def symbol (name : List Char) : SExp := plain .symbol (.atom (Text.Utf8.encode name))

/-- The number that marks a node's kind. -/
def kindNumber : SExp → Except Error Int
  | .pair (.pair (.atom k) _) _ => .ok (Bytes.toInt k)
  | .pair (.pair (.pair _ _) _) _ => .error .notAnAtom
  | .pair (.atom k) _ => .ok (Bytes.toInt k)
  | .atom b => .error (.eval .firstOfAtom (.atom b))

/-- The offset at which a node was read; a node without one gives minus one. -/
def offset : SExp → Except Error Int
  | .pair (.pair _ (.atom o)) _ => .ok (Bytes.toInt o)
  | .pair (.pair _ (.pair _ _)) _ => .error .notAnAtom
  | .pair (.atom _) _ => .ok (-1)
  | .atom b => .error (.eval .firstOfAtom (.atom b))

/-- Whether a node is of a kind. -/
def isKind (k : Kind) (n : SExp) : Except Error Bool := do
  return (← kindNumber n) == k.number

/-- The value of a node. -/
def value (n : SExp) : Except Error SExp := n.rest

/-- The value of a node that has to be an atom. -/
def bytes (n : SExp) : Except Error Bytes := do (← value n).bytes

/-- The value of a node, as a number. -/
def int (n : SExp) : Except Error Int := do return Bytes.toInt (← bytes n)

/-- The first node of a cons node. -/
def first (n : SExp) : Except Error SExp := do (← value n).first

/-- The rest of a cons node. -/
def rest (n : SExp) : Except Error SExp := do (← value n).rest

/-- The tree of a node's values. An empty list at the head of a pair has none. -/
def toTree : SExp → Except Error SExp
  | .atom b => .error (.eval .firstOfAtom (.atom b))
  | .pair head v => do
    let k ← kindNumber (.pair head v)
    if k = Kind.null.number then return .nil
    else if k = Kind.cons.number then
      match v with
      | .atom b => .error (.eval .firstOfAtom (.atom b))
      | .pair x y =>
        if ← isKind .null x then .error .emptyHead
        else return .pair (← toTree x) (← toTree y)
    else return v

/-- The name of a symbol node; any other node has none. -/
def symbolName? (n : SExp) : Except Error (Option (List Char)) :=
  match n with
  | .atom _ => .ok none
  | .pair _ v => do
    if ← isKind .symbol n then
      match Text.Utf8.decode? (← v.bytes) with
      | some name => return some name
      | none => .error .notText
    else return none

/-- The nodes of a list, whatever ends it. -/
def items : SExp → Except Error (List SExp)
  | .atom b => .error (.eval .firstOfAtom (.atom b))
  | .pair head v => do
    if ← isKind .cons (.pair head v) then
      match v with
      | .atom b => .error (.eval .firstOfAtom (.atom b))
      | .pair x y => return x :: (← items y)
    else return []

/-- Whether a tree is a node whose kind is marked by at most one byte. -/
def isShort : SExp → Bool
  | .pair (.atom mark) v =>
    if mark.length > 1 then false
    else match Kind.ofNumber? (Bytes.toInt mark) with
      | none => false
      | some .cons =>
        match v with
        | .atom b => b.isEmpty
        | .pair x y => isShort x && isShort y
      | some _ => !v.isPair
  | _ => false

end Clvm.Node
