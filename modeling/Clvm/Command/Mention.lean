import Clvm.Files.Name
import Clvm.Node.Token

/-!
# Files that a text may mention

A program is only given the files that were loaded for it. A file that a source text includes is named by a
token, so loading every file that a token names, in any directory of the search path, is enough.
-/

namespace Clvm.Command

/-- A token without the quotes around it. -/
def unquote (text : List Char) : List Char :=
  match text with
  | q :: more => if Token.isQuote q ∧ more.getLast? = some q then more.dropLast else text
  | [] => []

/-- The names that a source text may mention: each of its tokens, in each directory. -/
def mentionedNames (search : List String) (source : List Char) : List String :=
  (Token.stream source).tokens.flatMap fun t =>
    let name := String.ofList (unquote t.text)
    name :: search.map fun directory => FileName.inside directory name

end Clvm.Command
