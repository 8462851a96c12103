import Clvm.Error.Basic
import Clvm.Text.Blank

/-!
# Decimal numbers

A number is written with an optional sign and decimal digits of any script; single underscores may
stand between digits. Neither reading nor writing goes beyond a fixed number of digits.
-/

namespace Clvm.Text

/-- The zero of every run of ten decimal digits. -/
def digitZeros : List Nat :=
  [0x0030, 0x0660, 0x06F0, 0x07C0, 0x0966, 0x09E6, 0x0A66, 0x0AE6, 0x0B66, 0x0BE6, 0x0C66, 0x0CE6,
   0x0D66, 0x0DE6, 0x0E50, 0x0ED0, 0x0F20, 0x1040, 0x1090, 0x17E0, 0x1810, 0x1946, 0x19D0, 0x1A80,
   0x1A90, 0x1B50, 0x1BB0, 0x1C40, 0x1C50, 0xA620, 0xA8D0, 0xA900, 0xA9D0, 0xA9F0, 0xAA50, 0xABF0,
   0xFF10, 0x104A0, 0x10D30, 0x11066, 0x110F0, 0x11136, 0x111D0, 0x112F0, 0x11450, 0x114D0, 0x11650,
   0x116C0, 0x11730, 0x118E0, 0x11950, 0x11C50, 0x11D50, 0x11DA0, 0x16A60, 0x16AC0, 0x16B50, 0x1D7CE,
   0x1D7D8, 0x1D7E2, 0x1D7EC, 0x1D7F6, 0x1E140, 0x1E2F0, 0x1E950, 0x1FBF0]

/-- The value of a decimal digit. -/
def digit? (c : Char) : Option Nat :=
  (digitZeros.find? fun z => z ≤ c.toNat && c.toNat < z + 10).map (c.toNat - ·)

/-- The most digits that are read or written. -/
def maxDigits : Nat := 4300

/-- Digits with single underscores between them. -/
def digits? : List Char → Option (List Nat)
  | [] => none
  | [c] => (digit? c).map fun d => [d]
  | c :: '_' :: more => do return (← digit? c) :: (← digits? more)
  | c :: more => do return (← digit? c) :: (← digits? more)

/-- The number that digits write. -/
def ofDigits (ds : List Nat) : Nat := ds.foldl (fun acc d => 10 * acc + d) 0

/-- A number without sign. -/
def natural? (cs : List Char) : Option Nat := do
  let ds ← digits? cs
  if ds.length ≤ maxDigits then some (ofDigits ds) else none

/-- A number with an optional sign and blanks around it. -/
def integer? (cs : List Char) : Option Int :=
  match trimBy isMargin cs with
  | '+' :: more => (natural? more).map Int.ofNat
  | '-' :: more => (natural? more).map fun n => -(Int.ofNat n)
  | more => (natural? more).map Int.ofNat

/-- The decimal digits of a number. -/
def natural (n : Nat) : List Char := Nat.toDigits 10 n

/-- A number with a minus sign when it is negative. -/
def integer : Int → List Char
  | .ofNat n => natural n
  | .negSucc n => '-' :: natural (n + 1)

/-- The text of a number that does not have too many digits. -/
def boundedInteger (i : Int) : Except Error (List Char) :=
  let text := integer i
  if (natural i.natAbs).length ≤ maxDigits then .ok text else .error .tooManyDigits

end Clvm.Text
