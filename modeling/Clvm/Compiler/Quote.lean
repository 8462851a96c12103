import Clvm.Compiler.Word
import Clvm.Error.Basic
import Clvm.Form

/-!
# Quotations

`(quote x)` becomes `(q . x)` everywhere in a source tree, also where it stands as the end of a list.
-/

namespace Clvm.Compiler

/-- Writes quotations by the keyword. -/
def lowerQuote : SExp → Except Error SExp
  | .atom b => .ok (.atom b)
  | .pair head tail =>
    if head = .atom Word.quote then
      match tail with
      | .atom b => .error (.eval .restOfAtom (.atom b))
      | .pair x (.atom []) => do return Form.quote (← lowerQuote x)
      | .pair _ _ => .error (.source (.quoteArity (.pair head tail)))
    else do return .pair (← lowerQuote head) (← lowerQuote tail)

end Clvm.Compiler
