import Clvm.Compiler.Quote
import Clvm.Compiler.Table
import Clvm.Path
import Clvm.Session

/-!
# Compiling expressions

An expression becomes a program that gives the expression's value. Macro calls and lists in operator
position become programs that compile what is left when they are run, so a compiled program is
optimised before it is used.
-/

namespace Clvm.Compiler

/-- What an expression is compiled with. -/
structure Scope where
  /-- The macro table. -/
  macros : SExp
  /-- The symbol table. -/
  symbols : SExp
  /-- Compiles the declarations and the expression of a module. -/
  compileModule : SExp → Action Session SExp

/-- The program that compiles the value of `source` in this scope. -/
def Scope.compileLater (s : Scope) (source : SExp) : SExp :=
  .ofList [.atom Word.com, source, Form.quote s.macros, Form.quote s.symbols]

/-- Operators that are kept as they are. -/
def isKept (op : Bytes) : Bool :=
  Keyword.isAtom op || op == Word.com || op == Word.opt || op.head? == some 0x5f

/-- The value of an atom as an expression: the environment, a symbol's program, or the atom itself. -/
def compileAtom (s : Scope) (b : Bytes) : Except Error SExp := do
  if b = Word.all then return Path.top.toSExp
  else
    match ← lookupSymbol b s.symbols with
    | some v => return v
    | none => return Form.quote (.atom b)

/-- A call of a function. Its environment is the constants followed by the list of its arguments. -/
def compileCall (s : Scope) (code args : SExp) : SExp :=
  let arguments := Form.apply
    (.ofList [.atom Word.opt, s.compileLater (Form.quote (.pair (.atom Word.list) args))])
    Path.top.toSExp
  Form.apply code (Form.cons Path.left.toSExp arguments)

/-- The expression `(c op (c x (q)))`, which builds a list of an operator and the value of `x`. -/
def rebuild (op : Bytes) (x : SExp) : SExp := Form.cons (.atom op) (Form.cons x (Form.quote .nil))

mutual

/-- The program of an expression. -/
def compile (s : Scope) : Nat → SExp → Action Session SExp
  | 0, _ => throw .outOfFuel
  | fuel + 1, source => do
    match ← lowerQuote source with
    | .atom b => Action.ofExcept (compileAtom s b)
    | .pair (.pair x y) _ =>
      return .ofList [Form.apply (s.compileLater (Form.quote (.pair x y))) Path.top.toSExp]
    | .pair (.atom op) args =>
      match ← lookupMacro op s.macros with
      | some code => return Form.apply (s.compileLater (Form.run code args)) Path.top.toSExp
      | none =>
        if op = Word.quasi then
          return Form.apply (Form.quote (← compileQuasi s fuel 1 args)) Path.top.toSExp
        else if op = Word.macros then
          return Form.apply (Form.quote (Form.quote s.macros)) Path.top.toSExp
        else if op = Word.symbols then
          return Form.apply (Form.quote (Form.quote s.symbols)) Path.top.toSExp
        else if op = Word.lambda ∨ op = Word.mod then
          return Form.apply (Form.quote (← s.compileModule args)) Path.top.toSExp
        else if op = Keyword.quote then return .pair (.atom op) args
        else
          let compiled ← args.items.mapM (compile s fuel)
          args.checkProper
          let kept := SExp.pair (.atom op) (.ofList compiled)
          if isKept op then return kept
          else
            match ← lookupCallee op s.symbols with
            | some .operator => return kept
            | some (.function code) => return compileCall s code args
            | none => throw (.source (.unknownOperator (.pair (.atom op) args)))

/-- The program of a quasi-quotation at a depth of nesting. -/
def compileQuasi (s : Scope) : Nat → Int → SExp → Action Session SExp
  | 0, _, _ => throw .outOfFuel
  | fuel + 1, level, args => do
    let pairwise := fun (x y : SExp) => do
      let first ← compile s fuel (.ofList [.atom Word.quasi, x])
      let rest ← compile s fuel (.ofList [.atom Word.quasi, y])
      return Form.cons first rest
    match ← args.first with
    | .atom b => return Form.quote (.atom b)
    | .pair (.pair x x') y => pairwise (.pair x x') y
    | .pair (.atom op) more =>
      if op = Word.quasi then
        compile s fuel (rebuild op (← compileQuasi s fuel (level + 1) more))
      else if op = Word.unquote then
        if level = 1 then compile s fuel (← more.first)
        else compile s fuel (rebuild op (← compileQuasi s fuel (level - 1) more))
      else pairwise (.atom op) more

end

end Clvm.Compiler
