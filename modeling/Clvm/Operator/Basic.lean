import Clvm.SExp.Basic

/-!
# Operators and keywords

An operator of the machine is a one-byte atom. Source text writes it by its keyword. The keyword table
also names quoting and application, which the machine treats itself, and has dots at numbers without an
operator.
-/

namespace Clvm

/-- The operators that the machine looks up. -/
inductive Operator where
  | choose
  | cons
  | first
  | rest
  | isList
  | raise
  | equal
  | greaterBytes
  | sha256
  | substring
  | length
  | concat
  | add
  | subtract
  | multiply
  | divide
  | divmod
  | greater
  | shiftArithmetic
  | shiftLogical
  | bitAnd
  | bitOr
  | bitXor
  | bitNot
  | pointAdd
  | publicKey
  | not
  | any
  | all
  | softfork
deriving DecidableEq, Repr

namespace Operator

/-- The operator's atom. -/
def code : Operator → UInt8
  | choose => 3
  | cons => 4
  | first => 5
  | rest => 6
  | isList => 7
  | raise => 8
  | equal => 9
  | greaterBytes => 10
  | sha256 => 11
  | substring => 12
  | length => 13
  | concat => 14
  | add => 16
  | subtract => 17
  | multiply => 18
  | divide => 19
  | divmod => 20
  | greater => 21
  | shiftArithmetic => 22
  | shiftLogical => 23
  | bitAnd => 24
  | bitOr => 25
  | bitXor => 26
  | bitNot => 27
  | pointAdd => 29
  | publicKey => 30
  | not => 32
  | any => 33
  | all => 34
  | softfork => 36

/-- The operator's keyword. -/
def name : Operator → String
  | choose => "i"
  | cons => "c"
  | first => "f"
  | rest => "r"
  | isList => "l"
  | raise => "x"
  | equal => "="
  | greaterBytes => ">s"
  | sha256 => "sha256"
  | substring => "substr"
  | length => "strlen"
  | concat => "concat"
  | add => "+"
  | subtract => "-"
  | multiply => "*"
  | divide => "/"
  | divmod => "divmod"
  | greater => ">"
  | shiftArithmetic => "ash"
  | shiftLogical => "lsh"
  | bitAnd => "logand"
  | bitOr => "logior"
  | bitXor => "logxor"
  | bitNot => "lognot"
  | pointAdd => "point_add"
  | publicKey => "pubkey_for_exp"
  | not => "not"
  | any => "any"
  | all => "all"
  | softfork => "softfork"

/-- The operator of an atom. -/
def ofBytes? : Bytes → Option Operator
  | [3] => some choose
  | [4] => some cons
  | [5] => some first
  | [6] => some rest
  | [7] => some isList
  | [8] => some raise
  | [9] => some equal
  | [10] => some greaterBytes
  | [11] => some sha256
  | [12] => some substring
  | [13] => some length
  | [14] => some concat
  | [16] => some add
  | [17] => some subtract
  | [18] => some multiply
  | [19] => some divide
  | [20] => some divmod
  | [21] => some greater
  | [22] => some shiftArithmetic
  | [23] => some shiftLogical
  | [24] => some bitAnd
  | [25] => some bitOr
  | [26] => some bitXor
  | [27] => some bitNot
  | [29] => some pointAdd
  | [30] => some publicKey
  | [32] => some not
  | [33] => some any
  | [34] => some all
  | [36] => some softfork
  | _ => none

theorem ofBytes?_code (op : Operator) : ofBytes? [op.code] = some op := by
  cases op <;> rfl

end Operator

namespace Keyword

/-- The atoms of quoting and application. -/
def quote : Bytes := [1]
def apply : Bytes := [2]
def cons : Bytes := [4]
def first : Bytes := [5]
def rest : Bytes := [6]
def raise : Bytes := [8]

/-- The keywords, each at the place of its number. -/
def table : List String :=
  [".", "q", "a", "i", "c", "f", "r", "l", "x", "=", ">s", "sha256", "substr", "strlen", "concat", ".",
   "+", "-", "*", "/", "divmod", ">", "ash", "lsh", "logand", "logior", "logxor", "lognot", ".",
   "point_add", "pubkey_for_exp", ".", "not", "any", "all", ".", "softfork"]

/-- The atom of a place in the table. -/
def atomAt (n : Nat) : Bytes := if n = 0 then [] else [UInt8.ofNat n]

/-- The keyword of an atom. -/
def ofBytes? : Bytes → Option String
  | [] => table[0]?
  | [x] => if x = 0 then none else table[x.toNat]?
  | _ => none

/-- The atom of a keyword; of a keyword that stands more than once, the last. -/
def toBytes? (name : List Char) : Option Bytes :=
  go 0 table none
where
  go (n : Nat) : List String → Option Bytes → Option Bytes
    | [], found => found
    | w :: ws, found => go (n + 1) ws (if w.toList = name then some (atomAt n) else found)

/-- The atoms that some keyword names. -/
def isAtom (b : Bytes) : Bool :=
  table.any fun w => toBytes? w.toList = some b

end Keyword
end Clvm
