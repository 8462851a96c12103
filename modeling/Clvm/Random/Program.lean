import Clvm.Random.Draw
import Clvm.Text.Decimal

/-!
# Random programs

Programs in source text that are drawn at random. The kind of a program says what its value is used for, so
that most programs run without error.
-/

namespace Clvm.Random

variable {σ : Type} [Source σ]

/-- What the value of an expression is used as. -/
inductive Kind where
  | value
  | smallValue
  | list
  | valueList
  | program
  | point
  | string
  | anything
deriving DecidableEq, Repr

/-- The forms an expression can take. -/
inductive Shape where
  | value
  | path
  | cons
  | firstOfValues
  | rest
  | choice
  | firstOfList
  | consOfValues
  | valueList
  | application
  | operands (name : String) (kind : Option Kind)
  | unary (name : String) (kind : Option Kind)
  | shift (name : String)
  | division
  | quotient
  | remainder
  | concatenation
  | smallValue
  | point
  | substring
  | string
deriving DecidableEq, Repr

/-- Two hexadecimal digits. -/
def hexByte (n : Nat) : List Char := Bytes.toHex [UInt8.ofNat n]

/-- A byte that is not zero, so that it can be divided by. -/
def smallValue : Draw σ (List Char) := do
  return '0' :: 'x' :: hexByte (← between 1 255)

/-- Capital letters between quotes. -/
def string : Draw σ (List Char) := do
  let letters ← times (← between 5 10) (between 65 90)
  return '"' :: letters.map Char.ofNat ++ ['"']

/-- A string, or up to ten bytes. -/
def value : Draw σ (List Char) := do
  if (← between 0 5) = 0 then string
  else
    let bytes ← times (← between 1 10) (bits 8)
    return '0' :: 'x' :: bytes.flatMap hexByte

/-- A point of the curve. -/
def point : Draw σ (List Char) := String.toList <$> choose
  "0xb3b8ac537f4fd6bde9b26221d49b54b17a506be147347dae5d081c0a6572b611d8484e338f3432971a9823976c6a232b"
  ["0x8a9970d47a86db8a2261954a6876081722e347912875a96220db69c23be8b48ac2563499f2a4dc9c50fe169615a77d80",
   "0xa7e04cdd823ee4d767e99d72f9f73f5795faaf8161ddef3c3433c11793a27526a1909f8618edea2f01899536dca43d90",
   "0x92f552fab78a3c4a0f13297b96c56a7ae83dace9569ec65b94c7dc82490091803f01df688629e998894d8a195cba5c23"]

/-- A full binary tree with values at its leaves, which are at depth one less than the number. -/
def tree : Nat → Draw σ (List Char)
  | 0 | 1 => value
  | d + 2 => do
    let left ← tree (d + 1)
    let right ← tree (d + 1)
    return '(' :: left ++ " . ".toList ++ right ++ [')']

/-- The number of a path that leads one level less far down than the number says. -/
def pathNumber : Nat → Nat → Draw σ Nat
  | 0, n => return n
  | d + 1, n => do pathNumber d (2 * n + (← bits 1))

/-- A path to a leaf of a tree of the same depth. -/
def path (depth : Nat) : Draw σ (List Char) := do
  return Text.natural (← pathNumber (depth - 1) 1)

/-- A constant as a program. -/
def quoted (v : List Char) : List Char := "(q . ".toList ++ v ++ [')']

/-- A call with operands that are drawn from left to right. -/
def call (name : String) (operands : List (Draw σ (List Char))) : Draw σ (List Char) := do
  let texts ← operands.mapM id
  return '(' :: name.toList ++ texts.flatMap (' ' :: ·) ++ [')']

/-- A list of two values. -/
def pairOfValues : Draw σ (List Char) := do
  let first ← value
  let second ← value
  return '(' :: first ++ ' ' :: second ++ [')']

/-- An expression that is a constant. -/
def constant : Kind → Draw σ (List Char)
  | .smallValue => quoted <$> smallValue
  | .value => quoted <$> value
  | .list | .valueList | .anything => quoted <$> pairOfValues
  | .point => quoted <$> point
  | .string => quoted <$> string
  | .program => (fun v => quoted (quoted v)) <$> value

namespace Shape

/-- Every shape with the weight it has if any will do. -/
def all : List Shape :=
  [path, cons, firstOfValues, rest, choice, firstOfList, consOfValues, valueList, application, application,
   operands "+" none, operands "-" none, division, quotient, remainder, concatenation, operands "logior" none,
   operands "logxor" none, operands "logand" none, unary "lognot" none, shift "ash", shift "lsh",
   unary "strlen" (some .value), smallValue, choice, choice, operands "*" (some .value), unary "l" (some .anything),
   unary "pubkey_for_exp" (some .value), point, operands "point_add" (some .point), substring, string,
   operands "sha256" (some .value), operands "any" (some .value), operands "all" (some .value),
   unary "not" (some .value), operands "concat" (some .value)]

/-- The shapes of expressions of a kind: one of them, and the others. -/
def ofKind : Kind → Shape × List Shape
  | .value => (value,
    [path, firstOfValues, choice, choice, choice, operands "+" none, operands "-" none, quotient, remainder,
     concatenation, operands "logior" none, operands "logxor" none, operands "logand" none, unary "lognot" none,
     shift "ash", shift "lsh", unary "strlen" (some .value), operands "*" (some .value),
     unary "l" (some .anything), unary "pubkey_for_exp" (some .value), point, operands "point_add" (some .point),
     substring, string, operands "sha256" (some .value), operands "any" (some .value),
     operands "all" (some .value), unary "not" (some .value), operands "concat" (some .value)])
  | .smallValue => (choice,
    [choice, choice, operands "+" none, operands "-" none, operands "logior" none, operands "logxor" none,
     operands "logand" none, unary "lognot" none, unary "strlen" (some .value), smallValue,
     unary "l" (some .anything), operands "any" (some .value), operands "all" (some .value),
     unary "not" (some .value), unary "l" (some .anything)])
  | .point => (choice,
    [choice, choice, unary "pubkey_for_exp" (some .value), operands "point_add" (some .point),
     operands "point_add" (some .point)])
  | .string => (choice, [concatenation, choice, choice, string])
  | .list => (cons, [choice, choice, choice, consOfValues, valueList, division])
  | .valueList => (choice, [choice, choice, consOfValues, valueList, division])
  | .program => (choice, [choice, choice, application])
  | .anything => (value, all)

end Shape

/-- A condition, given how the expressions in it are drawn. -/
def conditionWith (inner : Kind → Draw σ (List Char)) : Draw σ (List Char) := do
  match ← between 0 5 with
  | 0 => call "=" [inner .value, inner .value]
  | 1 => call ">" [inner .value, inner .value]
  | 2 => call ">s" [inner .value, inner .value]
  | 3 => inner .value
  | 4 => call "l" [inner .anything]
  | _ => quoted <$> smallValue

/-- An expression of a shape. `inner` draws the expressions in it, for an environment of some depth, and `test`
those in a condition. -/
def ofShape (inner : Nat → Kind → Draw σ (List Char)) (test : Kind → Draw σ (List Char)) (env : Nat) (kind : Kind) :
    Shape → Draw σ (List Char)
  | .value => quoted <$> value
  | .path => path env
  | .cons => call "c" [inner env .anything, inner env .list]
  | .firstOfValues => call "f" [inner env .valueList]
  | .rest => call "r" [inner env .list]
  | .choice => call "i" [conditionWith test, inner env kind, inner env kind]
  | .firstOfList => call "f" [inner env .list]
  | .consOfValues => call "c" [inner env .value, inner env .valueList]
  | .valueList => quoted <$> pairOfValues
  | .application => do
    let depth ← between 1 5
    call "a" [quoted <$> inner depth .anything, quoted <$> tree depth]
  | .operands name operand => do
    call name (List.replicate (← between 0 4) (inner env (operand.getD (numberKind kind))))
  | .unary name operand => call name [inner env (operand.getD (numberKind kind))]
  | .shift name => call name [inner env .value, inner env .smallValue]
  | .division => call "divmod" [inner env .value, quoted <$> smallValue]
  | .quotient => call "f" [call "divmod" [inner env (numberKind kind), quoted <$> smallValue]]
  | .remainder => call "r" [call "divmod" [inner env .value, quoted <$> smallValue]]
  | .concatenation => do
    call "concat" (List.replicate (← between 1 4) (inner env .value) ++ [quoted <$> string])
  | .smallValue => quoted <$> smallValue
  | .point => quoted <$> point
  | .substring => call "substr" [inner env .string, pure (quoted ['0']), pure (quoted ['1'])]
  | .string => quoted <$> string
where
  /-- The kind of the operands of arithmetic: only a small value needs small ones. -/
  numberKind (kind : Kind) : Kind := if kind = .smallValue then .smallValue else .value

/-- An expression whose parts are drawn in a given way. -/
def compound (inner : Nat → Kind → Draw σ (List Char)) (test : Nat → Kind → Draw σ (List Char)) (env : Nat)
    (kind : Kind) : Draw σ (List Char) := do
  let (first, others) := Shape.ofKind kind
  ofShape inner (test env) env kind (← choose first others)

/-- An expression that is at most so deep. The expressions in a condition are less deep by one more level. -/
def expressionOfDepth : Nat → Nat → Kind → Draw σ (List Char)
  | 0 => fun _ => constant
  | 1 => compound (fun _ => constant) (fun _ => constant)
  | d + 2 => compound (expressionOfDepth (d + 1)) (expressionOfDepth d)

/-- An expression for an environment of some depth. -/
def expression (depth : Int) (env : Nat) (kind : Kind) : Draw σ (List Char) :=
  expressionOfDepth depth.toNat env kind

/-- A condition. -/
def condition (depth : Int) (env : Nat) : Draw σ (List Char) :=
  conditionWith (expression (depth - 1) env)

end Clvm.Random
