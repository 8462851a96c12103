import Clvm.Compiler.Operators

/-!
# The default macros

The macros that every expression can use. `defmacro` and `list` are compiled by hand, since compiling a
macro definition uses them; the others are compiled from source, each with those before it.
-/

namespace Clvm.Compiler

/-- `(defmacro name parameters body)` stands for `(list name (mod parameters body))`. -/
def macroDefinition : SExp :=
  let parameter := Form.first
  let further := Form.rest Form.env
  Form.cons (Form.quote (.atom Word.list))
    (Form.cons (parameter Form.env)
      (Form.cons
        (Form.cons (Form.quote (.atom Word.mod))
          (Form.cons (parameter further)
            (Form.cons (parameter (Form.rest further)) (Form.quote .nil))))
        (Form.quote .nil)))

/-- `(list x y ...)` stands for `(c x (c y ... ()))`. The code calls itself on the rest of the operands. -/
def listConstruction : SExp :=
  let recur := fun operands =>
    Form.apply (Form.path 2) (Form.cons (Form.path 2) (Form.cons operands (Form.quote .nil)))
  let step := Form.apply
    (Form.choose (Form.path 5)
      (Form.quote
        (Form.cons (Form.quote (.atom Keyword.cons))
          (Form.cons (Form.path 9) (Form.cons (recur (Form.path 13)) (Form.quote .nil)))))
      (Form.quote (Form.quote .nil)))
    Form.env
  Form.apply (Form.quote (Form.apply (Form.quote (recur (Form.path 3))) (Form.cons (Form.quote step) Form.env)))
    Form.env

/-- The macros that are compiled by hand. -/
def handCompiled : SExp :=
  .ofList [.ofList [.atom Word.list, listConstruction], .ofList [.atom Word.defineMacro, macroDefinition]]

/-- The macros that are compiled from source, in order. `function` compiles a literal program, `if`
evaluates only the branch that is taken, and division rounds down by way of the quotient and remainder. -/
def macroSources : List String :=
  ["(defmacro function (BODY)
        (qq (opt (com (q . (unquote BODY))
                 (qq (unquote (macros)))
                 (qq (unquote (symbols)))))))",
   "(defmacro if (A B C)
        (qq (a
            (i (unquote A)
               (function (unquote B))
               (function (unquote C)))
            @)))",
   "(defmacro / (A B) (qq (f (divmod (unquote A) (unquote B)))))"]

/-- Compiles the first part of its environment with the rest as macro table, and runs the result:
`(a (com 2 3) 1)`. -/
def definitionProgram : SExp :=
  Form.apply (.ofList [.atom Word.com, Form.path 2, Form.path 3]) Form.env

/-- Compiles macro definitions, each with the table so far, and puts them in front of it. -/
def extendTable (fuel : Nat) : SExp → List String → Action Session SExp
  | table, [] => pure table
  | table, source :: more => do
    let definition ← SExp.ofSource source.toList
    let (_, entry) ← runner ⟨[], .ok table⟩ fuel definitionProgram (.pair definition table)
    extendTable fuel (.pair entry table) more

/-- The default macro table. No macro in it computes with points, so it is compiled without a curve. -/
def defaultMacros : Except Error SExp :=
  match extendTable Machine.ample handCompiled macroSources (.start .empty) with
  | .ok table _ => .ok table
  | .error e _ => .error e

end Clvm.Compiler
