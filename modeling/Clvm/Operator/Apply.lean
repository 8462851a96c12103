import Clvm.Bytes.Integer
import Clvm.Hash.Sha256
import Clvm.Operator.Basic
import Clvm.Operator.Bits
import Clvm.SExp.Access

/-!
# What operators give and cost

Every operator takes the list of its operands and gives a cost and a result. Operands are examined from
the left; where a number of operands is fixed, either the chain of pairs is counted first and its end is
not looked at, or all operands are read first. Results that are new atoms cost ten for every byte.
-/

namespace Clvm

/-- A cost and a result. -/
abbrev Charged := Nat × SExp

/-- The operators that compute with the points of a curve, as functions of their operands. A machine works with any curve. -/
class Curve where
  /-- Adds points. -/
  pointAdd : SExp → Except Error Charged
  /-- The point of a number. -/
  publicKey : SExp → Except Error Charged

namespace Operator

/-- A new atom, with the cost of its bytes added. -/
def allocate (cost : Nat) (b : Bytes) : Charged := (cost + 10 * b.length, .atom b)

/-- Fails unless the chain of pairs has the given length. -/
def expectLength (name : String) (count : Nat) (args : SExp) : Except Error Unit :=
  if args.listLength = count then .ok () else .error (.eval (.arity name count) args)

/-- Reads operands from the left as atoms; a pair gives `fault`. -/
def readAtoms (fault : Fault) : SExp → Except Error (List Bytes)
  | .atom [] => .ok []
  | .atom b => .error (.eval .firstOfAtom (.atom b))
  | .pair (.atom b) more => do return b :: (← readAtoms fault more)
  | .pair x _ => .error (.eval fault x)

/-- The operands of an operator on integers, as atoms. -/
def readIntegers (name : String) (args : SExp) : Except Error (List Bytes) :=
  readAtoms (.needsInteger name) args

/-- The one operand of an operator on an integer. -/
def readInteger1 (name : String) (args : SExp) : Except Error Bytes := do
  match ← readIntegers name args with
  | [a] => .ok a
  | _ => .error (.eval (.arity name 1) args)

/-- The two operands of an operator on integers. -/
def readInteger2 (name : String) (args : SExp) : Except Error (Bytes × Bytes) := do
  match ← readIntegers name args with
  | [a, b] => .ok (a, b)
  | _ => .error (.eval (.arity name 2) args)

/-- Reads operands as integers of at most four bytes. -/
def readInt32 (name : String) : SExp → Except Error (List Int)
  | .atom [] => .ok []
  | .atom b => .error (.eval .firstOfAtom (.atom b))
  | .pair (.atom b) more =>
    if b.length > 4 then .error (.eval (.int32TooLong name) (.atom b))
    else do return Bytes.toInt b :: (← readInt32 name more)
  | .pair x _ => .error (.eval (.needsInt32 name) x)

/-- The number of bytes of all atoms together. -/
def totalLength (atoms : List Bytes) : Nat := atoms.foldl (fun total b => total + b.length) 0

def sumCost (atoms : List Bytes) : Nat := 99 + 320 * atoms.length + 3 * totalLength atoms

/-- Adds up what each further factor costs, from the sizes of the product so far and of the factor. -/
def productStep (cost sizeSoFar size : Nat) : Nat :=
  cost + 885 + 6 * (size + sizeSoFar) + size * sizeSoFar / 128

/-- Multiplies factors into `product`, whose size is that of its shortest unsigned form, except for a
first factor, which counts as it was given. -/
def multiplyAll (cost : Nat) (product : Int) (size : Nat) : List Bytes → Charged
  | [] => allocate cost (Bytes.ofInt product)
  | b :: more =>
    let next := product * Bytes.toInt b
    multiplyAll (productStep cost size b.length) next (byteLength next.natAbs) more

def bitwise (name : String) (combine : Int → Int → Int) (start : Int) (args : SExp) :
    Except Error Charged := do
  let atoms ← readIntegers name args
  let total := atoms.foldl (fun acc b => combine acc (Bytes.toInt b)) start
  return allocate (100 + 264 * atoms.length + 3 * totalLength atoms) (Bytes.ofInt total)

/-- Shifts the first operand, which `value` reads, by the second. -/
def shiftBy (name : String) (base : Nat) (value : Bytes → Int) (args : SExp) :
    Except Error Charged := do
  let (a, b) ← readInteger2 name args
  if b.length > 4 then .error (.eval (.int32TooLong name) (.atom b))
  else
    let n := Bytes.toInt b
    if n.natAbs > 65535 then .error (.eval .shiftTooLarge (.ofInt n))
    else
      let r := Bits.shift (value a) n
      return allocate (base + 3 * (a.length + byteLength r.natAbs)) (Bytes.ofInt r)

/-- The part of `text` from `start` up to `stop`. -/
def substringOf (args : SExp) (text : Bytes) (start stop : Int) : Except Error Charged :=
  if stop > text.length ∨ stop < start ∨ stop < 0 ∨ start < 0 then
    .error (.eval .substringRange args)
  else .ok (1, .atom ((text.drop start.toNat).take (stop - start).toNat))

/-- An operand that is not nil counts as true. -/
def truths (args : SExp) : Except Error (List Bool) := do
  return (← args.toList).map fun x => !x.isNil

/-- Without a curve, operands are only checked. -/
instance noCurve : Curve where
  pointAdd args := do
    let _ ← readAtoms (.onList "point_add") args
    .error .noCurve
  publicKey args := do
    let _ ← readInteger1 "pubkey_for_exp" args
    .error .noCurve

/-- The cost and result of an operator on its operands. -/
def apply [Curve] (op : Operator) (args : SExp) : Except Error Charged :=
  match op with
  | choose => do
    expectLength "i" 3 args
    let others ← args.rest
    if (← args.first).isNil then return (33, ← (← others.rest).first)
    else return (33, ← others.first)
  | cons => do
    expectLength "c" 2 args
    return (50, .pair (← args.first) (← (← args.rest).first))
  | first => do
    expectLength "f" 1 args
    return (30, ← (← args.first).first)
  | rest => do
    expectLength "r" 1 args
    return (30, ← (← args.first).rest)
  | isList => do
    expectLength "l" 1 args
    return (19, .ofBool (← args.first).isPair)
  | raise => .error (.eval .raised args)
  | equal => do
    expectLength "=" 2 args
    match ← args.first, ← (← args.rest).first with
    | .atom a, .atom b => return (117 + a.length + b.length, .ofBool (a = b))
    | .atom _, y => .error (.eval (.onList "=") y)
    | x, _ => .error (.eval (.onList "=") x)
  | greaterBytes => do
    match ← args.toList with
    | [.atom a, .atom b] => return (117 + a.length + b.length, .ofBool (Bytes.lt b a))
    | [.atom _, y] => .error (.eval (.onList ">s") y)
    | [x, _] => .error (.eval (.onList ">s") x)
    | _ => .error (.eval (.arity ">s" 2) args)
  | sha256 => do
    let atoms ← readAtoms (.onList "sha256") args
    return allocate (87 + 134 * atoms.length + 2 * totalLength atoms) (Clvm.sha256 atoms.flatten)
  | substring => do
    if args.listLength ≠ 2 ∧ args.listLength ≠ 3 then .error (.eval .substringArity args)
    else
      match ← args.first with
      | .atom text =>
        match ← readInt32 "substr" (← args.rest) with
        | [start] => substringOf args text start text.length
        | [start, stop] => substringOf args text start stop
        | _ => .error (.eval .substringArity args)
      | x => .error (.eval (.onList "substr") x)
  | length => do
    expectLength "strlen" 1 args
    match ← args.first with
    | .atom b => return allocate (173 + b.length) (Bytes.ofInt b.length)
    | x => .error (.eval (.onList "strlen") x)
  | concat => do
    let atoms ← readAtoms (.onList "concat") args
    let whole := atoms.flatten
    return allocate (142 + 135 * atoms.length + 3 * whole.length) whole
  | add => do
    let atoms ← readIntegers "+" args
    return allocate (sumCost atoms) (Bytes.ofInt (atoms.foldl (fun total b => total + Bytes.toInt b) 0))
  | subtract => do
    match ← readIntegers "-" args with
    | [] => return (99, .nil)
    | a :: more =>
      return allocate (sumCost (a :: more))
        (Bytes.ofInt (more.foldl (fun acc b => acc - Bytes.toInt b) (Bytes.toInt a)))
  | multiply => do
    match ← readIntegers "*" args with
    | [] => return allocate 92 [1]
    | a :: more => return multiplyAll 92 (Bytes.toInt a) a.length more
  | divide => do
    let (a, b) ← readInteger2 "/" args
    let x := Bytes.toInt a
    let y := Bytes.toInt b
    if y = 0 then .error (.eval (.divisionByZero "div") (.ofInt x))
    else return allocate (988 + 4 * (a.length + b.length)) (Bytes.ofInt (x.fdiv y))
  | divmod => do
    let (a, b) ← readInteger2 "divmod" args
    let x := Bytes.toInt a
    let y := Bytes.toInt b
    if y = 0 then .error (.eval (.divisionByZero "divmod") (.ofInt x))
    else
      let q := Bytes.ofInt (x.fdiv y)
      let r := Bytes.ofInt (x.fmod y)
      return (1116 + 6 * (a.length + b.length) + 10 * (q.length + r.length),
        .pair (.atom q) (.atom r))
  | greater => do
    let (a, b) ← readInteger2 ">" args
    return (498 + 2 * (a.length + b.length), .ofBool (Bytes.toInt a > Bytes.toInt b))
  | shiftArithmetic => shiftBy "ash" 596 Bytes.toInt args
  | shiftLogical => shiftBy "lsh" 277 (fun b => Bytes.toNat b) args
  | bitAnd => bitwise "logand" Bits.and (-1) args
  | bitOr => bitwise "logior" Bits.or 0 args
  | bitXor => bitwise "logxor" Bits.xor 0 args
  | bitNot => do
    let a ← readInteger1 "lognot" args
    return allocate (331 + 3 * a.length) (Bytes.ofInt (Bits.complement (Bytes.toInt a)))
  | pointAdd => Curve.pointAdd args
  | publicKey => Curve.publicKey args
  | not => do
    match ← truths args with
    | [b] => return (200, .ofBool !b)
    | _ => .error (.eval (.arity "not" 1) args)
  | any => do
    let bs ← truths args
    return (200 + 300 * bs.length, .ofBool (bs.any id))
  | all => do
    let bs ← truths args
    return (200 + 300 * bs.length, .ofBool (bs.all id))
  | softfork => do
    if args.listLength < 1 then .error (.eval .softforkArity args)
    else
      match ← args.first with
      | .atom b =>
        let cost := Bytes.toInt b
        if cost < 1 then .error (.eval .softforkCost args) else return (cost.toNat, .nil)
      | x => .error (.eval (.needsInteger "softfork") x)

end Operator

namespace UnknownOperator

/-- Costs as for adding, multiplying or joining the operands, by the top two bits of the last byte. -/
def baseCost (selector : Nat) (args : SExp) : Except Error Nat :=
  match selector with
  | 0 => .ok 1
  | 1 => do return Operator.sumCost (← Operator.readAtoms (.needsInteger "unknown op") args)
  | 2 => do
    match ← Operator.readAtoms (.needsInteger "unknown op") args with
    | [] => return 92
    | a :: more =>
      let step := fun (cost, size) (b : Bytes) =>
        (Operator.productStep cost size b.length, size + b.length)
      return (more.foldl step (92, a.length)).1
  | _ => do
    let atoms ← Operator.readAtoms (.onList "unknown op") args
    return 142 + 135 * atoms.length + 3 * Operator.totalLength atoms

/-- An operator that is not known gives nil, at a cost that its atom encodes. -/
def apply (op : Bytes) (args : SExp) : Except Error Charged :=
  match op.getLast? with
  | none => .error (.eval .reservedOperator (.atom op))
  | some last =>
    if op.take 2 = [0xff, 0xff] then .error (.eval .reservedOperator (.atom op))
    else if op.length > 5 then .error (.eval .invalidOperator (.atom op))
    else do
      let cost := (← baseCost (last.toNat / 64) args) * (Bytes.toNat op.dropLast + 1)
      if cost ≥ 4294967296 then .error (.eval .invalidOperator (.atom op)) else return (cost, .nil)

/-- The strict reading: an operator that is not known is an error. -/
def refuse (op : Bytes) (_ : SExp) : Except Error Charged :=
  .error (.eval .unimplementedOperator (.atom op))

end UnknownOperator
end Clvm
