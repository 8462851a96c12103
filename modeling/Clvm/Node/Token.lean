import Clvm.Error.Basic
import Clvm.Text.Blank

/-!
# Tokens

Source text is cut into tokens: parentheses, dots, quoted text with its quotes, and runs of other
characters up to a blank or a closing parenthesis. Blanks and comments, from a semicolon to the end of the
line, stand between tokens. A quote that is never closed ends the tokens with a fault.
-/

namespace Clvm

/-- A piece of source text and the number of characters before it. -/
structure Token where
  text : List Char
  offset : Nat
deriving DecidableEq, Repr

namespace Token

/-- The tokens of a text, and what is wrong with the rest of it. -/
structure Stream where
  tokens : List Token
  fault : Option SyntaxFault
deriving DecidableEq, Repr

def Stream.push (t : Token) (s : Stream) : Stream := { s with tokens := t :: s.tokens }

/-- What a scanner is inside of. `text` is what it has read of a token, the last character first. -/
inductive Scan where
  | gap
  | comment
  | bare (start : Nat) (text : List Char)
  | quoted (quote : Char) (start : Nat) (text : List Char)

/-- These characters are tokens by themselves where a token starts. -/
def isMark (c : Char) : Bool := c == '(' || c == '.' || c == ')'

def isQuote (c : Char) : Bool := c == '"' || c == '\''

/-- Scans a text that starts at an offset. -/
def scan : Scan → Nat → List Char → Stream
  | .gap, _, [] => ⟨[], none⟩
  | .gap, offset, c :: cs =>
    if Text.isBlank c then scan .gap (offset + 1) cs
    else if c == ';' then scan .comment (offset + 1) cs
    else if isMark c then (scan .gap (offset + 1) cs).push ⟨[c], offset⟩
    else if isQuote c then scan (.quoted c offset [c]) (offset + 1) cs
    else scan (.bare offset [c]) (offset + 1) cs
  | .comment, _, [] => ⟨[], none⟩
  | .comment, offset, c :: cs =>
    if c == '\n' || c == '\r' then scan .gap (offset + 1) cs else scan .comment (offset + 1) cs
  | .bare start text, _, [] => ⟨[⟨text.reverse, start⟩], none⟩
  | .bare start text, offset, c :: cs =>
    if Text.isBlank c then (scan .gap (offset + 1) cs).push ⟨text.reverse, start⟩
    else if c == ')' then
      ((scan .gap (offset + 1) cs).push ⟨[c], offset⟩).push ⟨text.reverse, start⟩
    else scan (.bare start (c :: text)) (offset + 1) cs
  | .quoted _ start text, _, [] => ⟨[], some (.unterminatedString start text.reverse)⟩
  | .quoted q start text, offset, c :: cs =>
    if c == q then (scan .gap (offset + 1) cs).push ⟨(c :: text).reverse, start⟩
    else scan (.quoted q start (c :: text)) (offset + 1) cs

/-- The tokens of a source text. -/
def stream (source : List Char) : Stream := scan .gap 0 source

end Token
end Clvm
