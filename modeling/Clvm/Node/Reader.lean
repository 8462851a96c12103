import Clvm.Node.Basic
import Clvm.Node.Token
import Clvm.Text.Decimal
import Clvm.Text.Hex

/-!
# Reading nodes

A token that is no mark is a number, bytes in hexadecimal, quoted text or else a symbol. Lists are read
with one frame for every parenthesis that is open. Only the first expression of a text is read: what
follows it is not looked at, be it tokens or a fault of the text.
-/

namespace Clvm.Node

/-- The node of a decimal number. -/
def readInt? (text : List Char) (offset : Int) : Option SExp :=
  (Text.integer? text).map fun i => located .int offset (.ofInt i)

/-- The node of bytes in hexadecimal, where an odd number of digits has a zero in front. -/
def readHex? (text : List Char) (offset : Int) : Except Error (Option SExp) :=
  match text with
  | '0' :: x :: digits =>
    if x = 'x' ∨ x = 'X' then
      let digits := if digits.length % 2 = 1 then '0' :: digits else digits
      match Text.bytesOfHex? digits with
      | some b => .ok (some (located .hex offset (.atom b)))
      | none => .error (.source (.invalidHex offset digits))
    else .ok none
  | _ => .ok none

/-- The node of quoted text. -/
def readQuoted? (text : List Char) (offset : Int) : Except Error (Option SExp) :=
  match text with
  | q :: c :: cs =>
    if Token.isQuote q then
      if (c :: cs).getLast? = some q then
        let kind := if q = '\'' then Kind.singleQuote else Kind.doubleQuote
        .ok (some (located kind offset (.atom (Text.Utf8.encode (c :: cs).dropLast))))
      else .error (.source (.unterminatedString offset text))
    else .ok none
  | _ => .ok none

/-- The node of a symbol. -/
def readSymbol (text : List Char) (offset : Int) : SExp :=
  located .symbol offset (.atom (Text.Utf8.encode text))

/-- The node of a token that opens no list. -/
def readLeaf (t : Token) : Except Error SExp :=
  match readInt? t.text t.offset with
  | some n => .ok n
  | none => do
    match ← readHex? t.text t.offset with
    | some n => return n
    | none =>
      match ← readQuoted? t.text t.offset with
      | some n => return n
      | none => return readSymbol t.text t.offset

/-- A list whose closing parenthesis has not been read. -/
structure Open where
  /-- Where its opening parenthesis stands. -/
  offset : Nat
  /-- Its nodes and their offsets, the last first. -/
  items : List (SExp × Nat)
  /-- The offset of its dot, and the node after the dot once that is read. -/
  dot : Option (Nat × Option SExp)

/-- The node of a list that ends in `tail`. -/
def Open.close (o : Open) (tail : SExp) : SExp :=
  o.items.foldl (fun acc (n, offset) => cons n acc (some offset)) tail

/-- The list with one more node. -/
def Open.add (o : Open) (n : SExp) (offset : Nat) : Open :=
  match o.dot with
  | none => { o with items := (n, offset) :: o.items }
  | some (dot, _) => { o with dot := some (dot, some n) }

/-- What a token does inside an open list. -/
inductive Move where
  | close (tail : SExp)
  | dot
  | nest
  | leaf

/-- The first token of a list is never its dot, and the token after a dot is always a node. -/
def Open.move (o : Open) (t : Token) : Except Error Move :=
  match o.dot with
  | some (dot, some tail) =>
    if t.text = [')'] then .ok (.close tail) else .error (.source (.illegalDot dot))
  | some (_, none) => if t.text = ['('] then .ok .nest else .ok .leaf
  | none =>
    if t.text = [')'] then .ok (.close (located .null t.offset .nil))
    else if t.text = ['.'] ∧ o.items ≠ [] then .ok .dot
    else if t.text = ['('] then .ok .nest
    else .ok .leaf

/-- Reads on inside the lists that are open, the innermost first, and gives the outermost node and the
tokens after it. `atEnd` is what the end of the tokens means. -/
def readOpen (atEnd : SyntaxFault) : Open → List Open → List Token → Except Error (SExp × List Token)
  | _, _, [] => .error (.source atEnd)
  | o, outer, t :: ts => do
    match ← o.move t with
    | .close tail =>
      match outer with
      | [] => return (o.close tail, ts)
      | p :: outer => readOpen atEnd (p.add (o.close tail) o.offset) outer ts
    | .dot => readOpen atEnd { o with dot := some (t.offset, none) } outer ts
    | .nest => readOpen atEnd ⟨t.offset, [], none⟩ (o :: outer) ts
    | .leaf => readOpen atEnd (o.add (← readLeaf t) t.offset) outer ts

/-- The first node of a stream of tokens, and the tokens after it. -/
def readStream (s : Token.Stream) : Except Error (SExp × List Token) :=
  match s.tokens with
  | [] => .error (.source (s.fault.getD .unexpectedEnd))
  | t :: ts =>
    if t.text = ['('] then readOpen (s.fault.getD .missingClose) ⟨t.offset, [], none⟩ [] ts
    else do return (← readLeaf t, ts)

/-- The node of the first expression of a source text. -/
def read (source : List Char) : Except Error SExp :=
  (·.1) <$> readStream (Token.stream source)

end Clvm.Node
