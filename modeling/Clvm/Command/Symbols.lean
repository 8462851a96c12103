import Clvm.Error.Basic
import Clvm.Text.Json

/-!
# Tables of symbols

The names of functions by the tree hashes of their programs, as read from a symbol file. The file is
expected to hold an object, but any value is used as far as it goes: hashes are found among the items of an array and
within a string, only names are not.
-/

namespace Clvm.Command

/-- A value read from a symbol file. -/
structure Symbols where
  content : Text.Json

namespace Symbols

/-- Whether a value says nothing: null, false, zero or empty. -/
def isVoid : Text.Json → Bool
  | .null => true
  | .bool b => !b
  | .number text => (text.takeWhile fun c => c ≠ 'e' ∧ c ≠ 'E').all fun c => c = '0' || c = '.' || c = '-'
  | .string s => s.isEmpty
  | .array xs => xs.isEmpty
  | .object es => es.isEmpty

def isEmpty (s : Symbols) : Bool := isVoid s.content

/-- Whether a text is part of another. -/
def within (part : List Char) : List Char → Bool
  | [] => part.isEmpty
  | c :: cs => part.isPrefixOf (c :: cs) || within part cs

/-- The hashes that a table holds. -/
def hashes (s : Symbols) : Except Error (List Char → Bool) :=
  match s.content with
  | .object es => .ok fun h => es.any (·.1 == h)
  | .array xs => .ok fun h => xs.any fun
    | .string x => x == h
    | _ => false
  | .string text => .ok fun h => within h text
  | _ => .error .unsearchable

/-- The name of a hash, if there is one that is not empty. -/
def name? (s : Symbols) (hash : List Char) : Except Error (Option (List Char)) :=
  if s.isEmpty then .ok none
  else
    match s.content with
    | .object es =>
      match es.lookup hash with
      | some (.string name) => .ok (if name.isEmpty then none else some name)
      | some v => if isVoid v then .ok none else .error .notASymbolFile
      | none => .ok none
    | _ => .error .notASymbolFile

end Symbols
end Clvm.Command
