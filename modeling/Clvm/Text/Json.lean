import Clvm.Text.Hex

/-!
# JSON texts

A reader of JSON values. A text holds one value and blanks around it. Strings may not hold control
characters. `NaN`, `Infinity` and `-Infinity` are numbers as well. In an object a later entry of a name counts, not
an earlier one.
-/

namespace Clvm.Text

inductive Json where
  | null
  | bool (b : Bool)
  /-- A number as it is written. -/
  | number (text : List Char)
  | string (text : List Char)
  | array (items : List Json)
  | object (entries : List (List Char × Json))
deriving Repr

namespace Json

def isBlank (c : Char) : Bool := c = ' ' || c = '\t' || c = '\n' || c = '\r'

def skipBlanks (cs : List Char) : List Char := cs.dropWhile isBlank

/-- The text after a given beginning. -/
def dropExactly? : List Char → List Char → Option (List Char)
  | [], cs => some cs
  | p :: ps, c :: cs => if p = c then dropExactly? ps cs else none
  | _ :: _, [] => none

/-- The number of four hexadecimal digits. -/
def unit? (a b c d : Char) : Option Nat := do
  return (((← hexDigit? a) * 16 + (← hexDigit? b)) * 16 + (← hexDigit? c)) * 16 + (← hexDigit? d)

/-- The character of two surrogates, if they are a high one and a low one. -/
def joined? (high low : Nat) : Option Char :=
  if 0xD800 ≤ high ∧ high < 0xDC00 ∧ 0xDC00 ≤ low ∧ low < 0xE000 then
    some (Char.ofNat (0x10000 + (high - 0xD800) * 0x400 + (low - 0xDC00)))
  else none

/-- The character that stands for a unit; half of a pair alone has none and becomes the mark for that. -/
def charOfUnit (n : Nat) : Char :=
  if 0xD800 ≤ n ∧ n < 0xE000 then Char.ofNat 0xFFFD else Char.ofNat n

/-- What a backslash and a letter stand for. -/
def escaped? : Char → Option Char
  | '"' => some '"'
  | '\\' => some '\\'
  | '/' => some '/'
  | 'b' => some (Char.ofNat 8)
  | 'f' => some (Char.ofNat 12)
  | 'n' => some '\n'
  | 'r' => some '\r'
  | 't' => some '\t'
  | _ => none

/-- Reads a string after its opening quote, and gives what follows the closing one. -/
def readString? : List Char → Option (List Char × List Char)
  | [] => none
  | '"' :: more => some ([], more)
  | '\\' :: 'u' :: a :: b :: c :: d :: '\\' :: 'u' :: e :: f :: g :: h :: more => do
    let high ← unit? a b c d
    match unit? e f g h >>= joined? high with
    | some x => return ((← readString? more).map (x :: ·) id)
    | none => return ((← readString? ('\\' :: 'u' :: e :: f :: g :: h :: more)).map (charOfUnit high :: ·) id)
  | '\\' :: 'u' :: a :: b :: c :: d :: more => do
    let n ← unit? a b c d
    return ((← readString? more).map (charOfUnit n :: ·) id)
  | '\\' :: c :: more => do
    let x ← escaped? c
    return ((← readString? more).map (x :: ·) id)
  | c :: more =>
    if c.toNat < 32 ∨ c = '\\' then none
    else do return ((← readString? more).map (c :: ·) id)

/-- Cuts off the digits at the beginning. -/
def digits (cs : List Char) : List Char × List Char := cs.span Char.isDigit

/-- The integer part of a number: a zero stands alone. -/
def readWhole? (cs : List Char) : Option (List Char × List Char) :=
  match digits cs with
  | ('0' :: extra, more) => some (['0'], extra ++ more)
  | ([], _) => none
  | (ds, more) => some (ds, more)

/-- The part after a point, if there is one. -/
def readFraction (cs : List Char) : List Char × List Char :=
  match cs with
  | '.' :: more =>
    match digits more with
    | ([], _) => ([], cs)
    | (ds, rest) => ('.' :: ds, rest)
  | _ => ([], cs)

/-- The exponent, if there is one. -/
def readExponent (cs : List Char) : List Char × List Char :=
  match cs with
  | c :: more =>
    if c = 'e' ∨ c = 'E' then
      let (sign, body) := more.span fun x => x = '+' || x = '-'
      match digits body with
      | ([], _) => ([], cs)
      | (ds, rest) => if sign.length ≤ 1 then (c :: sign ++ ds, rest) else ([], cs)
    else ([], cs)
  | [] => ([], cs)

/-- Reads a number that starts with a digit or a minus sign. -/
def readNumber? (cs : List Char) : Option (List Char × List Char) := do
  let (sign, body) := match cs with
    | '-' :: more => (['-'], more)
    | _ => ([], cs)
  let (whole, rest) ← readWhole? body
  let (fraction, rest) := readFraction rest
  let (exponent, rest) := readExponent rest
  return (sign ++ whole ++ fraction ++ exponent, rest)

/-- The words that are values, with what they stand for. -/
def words : List (String × Json) :=
  [("null", null), ("true", bool true), ("false", bool false), ("NaN", number "NaN".toList),
   ("Infinity", number "Infinity".toList), ("-Infinity", number "-Infinity".toList)]

def readWord? (cs : List Char) : Option (Json × List Char) :=
  words.findSome? fun (w, v) => (dropExactly? w.toList cs).map (v, ·)

/-- Sets the entry of a name. -/
def setEntry (name : List Char) (v : Json) : List (List Char × Json) → List (List Char × Json)
  | [] => [(name, v)]
  | (k, w) :: more => if k = name then (k, v) :: more else (k, w) :: setEntry name v more

mutual

/-- Reads a value. Every item costs a unit of fuel, and so does every bracket around it. -/
def readValue? : Nat → List Char → Option (Json × List Char)
  | 0, _ => none
  | fuel + 1, cs =>
    match cs with
    | '"' :: more => (readString? more).map fun (s, rest) => (string s, rest)
    | '[' :: more =>
      match skipBlanks more with
      | ']' :: rest => some (array [], rest)
      | inner => (readItems? fuel inner).map fun (xs, rest) => (array xs, rest)
    | '\x7b' :: more =>
      match skipBlanks more with
      | '\x7d' :: rest => some (object [], rest)
      | inner => (readEntries? fuel [] inner).map fun (es, rest) => (object es, rest)
    | _ => (readWord? cs).or ((readNumber? cs).map fun (t, rest) => (number t, rest))

/-- Reads the items of an array, and its end. -/
def readItems? : Nat → List Char → Option (List Json × List Char)
  | 0, _ => none
  | fuel + 1, cs => do
    let (v, rest) ← readValue? fuel cs
    match skipBlanks rest with
    | ',' :: more =>
      let (vs, rest) ← readItems? fuel (skipBlanks more)
      return (v :: vs, rest)
    | ']' :: more => return ([v], more)
    | _ => none

/-- Reads the entries of an object after those already read, and its end. -/
def readEntries? : Nat → List (List Char × Json) → List Char → Option (List (List Char × Json) × List Char)
  | 0, _, _ => none
  | fuel + 1, known, '"' :: more => do
    let (name, rest) ← readString? more
    match skipBlanks rest with
    | ':' :: more =>
      let (v, rest) ← readValue? fuel (skipBlanks more)
      let entries := setEntry name v known
      match skipBlanks rest with
      | ',' :: more => readEntries? fuel entries (skipBlanks more)
      | '\x7d' :: more => return (entries, more)
      | _ => none
    | _ => none
  | _, _, _ => none

end

/-- The value of a text. -/
def parse? (cs : List Char) : Option Json := do
  let (v, rest) ← readValue? (2 * cs.length + 2) (skipBlanks cs)
  if (skipBlanks rest).isEmpty then return v else none

end Json
end Clvm.Text
