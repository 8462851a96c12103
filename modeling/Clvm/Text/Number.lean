import Clvm.Text.Decimal

/-!
# Numbers with a fraction

Reading: an optional sign, digits with a point among them, and an optional power of ten; or a word for a number
without value. Writing: a fixed number of decimal places, where a half goes to the even neighbour and zero has
no sign.
-/

namespace Clvm.Text

/-- What a text of a number means. -/
inductive Number where
  | finite (value : Rat)
  | infinite
  | undefined
deriving DecidableEq

namespace Number

/-- The texts before and after the first character of a class, if there is one. -/
def cutBy (p : Char → Bool) (cs : List Char) : List Char × Option (List Char) :=
  match cs.span (!p ·) with
  | (before, _ :: after) => (before, some after)
  | (before, []) => (before, none)

/-- Digits, of which there may be none. -/
def looseDigits? (cs : List Char) : Option (List Nat) := if cs.isEmpty then some [] else digits? cs

/-- A whole number with an optional sign. -/
def exponent? : List Char → Option Int
  | '+' :: more => (digits? more).map fun ds => Int.ofNat (ofDigits ds)
  | '-' :: more => (digits? more).map fun ds => -Int.ofNat (ofDigits ds)
  | more => (digits? more).map fun ds => Int.ofNat (ofDigits ds)

/-- A whole number times a power of ten. Powers that are far out of the range of measurements
are taken as infinite or as nothing. -/
def scaled (m : Nat) (e : Int) : Number :=
  let magnitude := e + (natural m).length
  if m = 0 ∨ magnitude < -330 then finite 0
  else if magnitude > 310 then infinite
  else if 0 ≤ e then finite (m * Nat.pow 10 e.toNat : Nat)
  else finite (mkRat m (Nat.pow 10 e.natAbs))

/-- A number without sign. -/
def unsigned? (cs : List Char) : Option Number := do
  let (mantissa, power) := cutBy (fun c => c = 'e' || c = 'E') cs
  let e ← match power with
    | some power => exponent? power
    | none => some 0
  let (whole, fraction) := cutBy (· = '.') mantissa
  let whole ← looseDigits? whole
  let fraction ← looseDigits? (fraction.getD [])
  let ds := whole ++ fraction
  if ds.isEmpty then none else some (scaled (ofDigits ds) (e - fraction.length))

/-- A word that stands for a number without value. -/
def word? (cs : List Char) : Option Number :=
  match String.ofList (cs.map Char.toLower) with
  | "inf" | "infinity" => some infinite
  | "nan" => some undefined
  | _ => none

def neg : Number → Number
  | finite q => finite (-q)
  | other => other

/-- The number of a text, with blanks around it. -/
def read? (cs : List Char) : Option Number :=
  match trimBy isMargin cs with
  | '+' :: more => (word? more).or (unsigned? more)
  | '-' :: more => ((word? more).or (unsigned? more)).map neg
  | more => (word? more).or (unsigned? more)

end Number

/-- The whole number next to a quotient, the even one if there are two. -/
def roundDiv (num den : Nat) : Nat :=
  let q := num / den
  let r := num % den
  if 2 * r < den ∨ (2 * r = den ∧ q % 2 = 0) then q else q + 1

/-- A number with a fixed number of decimal places. -/
def fixed (places : Nat) (q : Rat) : List Char :=
  let n := roundDiv (q.num.natAbs * Nat.pow 10 places) q.den
  let ds := natural n
  let padded := List.replicate (places + 1 - ds.length) '0' ++ ds
  let cut := padded.length - places
  let text := padded.take cut ++ '.' :: padded.drop cut
  if q.num < 0 ∧ n ≠ 0 then '-' :: text else text

end Clvm.Text
