import Clvm.Form
import Clvm.Machine.Basic
import Clvm.Pattern

/-!
# Currying

Binding leading arguments to a program gives a program of the remaining ones,
`(a (q . program) (c (q . first) (c (q . second) ... 1)))`. It is computed by a program of the machine,
so it has a cost. `uncurry` takes such a program apart again.
-/

namespace Clvm

namespace Currying

/-- Wraps a program and the program that builds its environment: `(a (q . program) env)`. -/
def wrapper : SExp :=
  Form.cons (Form.quote (.atom Keyword.apply))
    (Form.cons (Form.cons (Form.quote (.atom Keyword.quote)) (Form.path 5))
      (Form.cons
        (Form.apply (Form.path 6)
          (Form.cons (Form.path 2) (Form.cons (Form.path 11) (Form.quote (.ofList [Form.env])))))
        .nil))

/-- Conses one bound argument after the other onto the environment. -/
def binder : SExp :=
  Form.apply
    (Form.choose (Form.path 5)
      (Form.quote
        (Form.cons (Form.quote (.atom Keyword.cons))
          (Form.cons (Form.cons (Form.quote (.atom Keyword.quote)) (Form.path 9))
            (Form.cons
              (Form.apply (Form.path 6)
                (Form.cons (Form.path 2) (Form.cons (Form.path 13) (Form.cons (Form.path 11) .nil))))
              .nil))))
      (Form.quote (Form.path 11)))
    Form.env

/-- The program that binds the rest of its environment to the first part. -/
def program : SExp :=
  Form.apply
    (Form.quote
      (Form.apply (Form.path 4)
        (Form.cons (Form.path 2) (Form.cons (Form.path 5) (Form.cons (Form.path 7) .nil)))))
    (Form.cons (Form.quote (.pair wrapper binder)) Form.env)

end Currying

/-- Binds a list of arguments to a program, with the cost of doing so. -/
def curry [Curve] (program args : SExp) : Except Error Charged :=
  Machine.evaluateBase Currying.program (.pair program args) 0 false

namespace Currying

/-- The pattern that takes any tree under a name. -/
def hole (name : String) : SExp := .pair (.atom Pattern.treeMark) (.atom (Text.Utf8.encode name.toList))

/-- An operator with a constant and another program as operands: `(op (q . x) y)`. -/
def onConstant (op : Bytes) (x y : SExp) : SExp := .ofList [.atom op, Form.quote x, y]

/-- A program on an environment: `(a (q . (: . function)) (: . core))`. -/
def functionPattern : SExp := onConstant Keyword.apply (hole "function") (hole "core")

/-- An argument in front of others: `(c (q . (: . parm)) (: . core))`. -/
def argumentPattern : SExp := onConstant Keyword.cons (hole "parm") (hole "core")

/-- What two names of a pattern stand for in a tree. -/
def parts? (pattern : SExp) (name name' : String) (t : SExp) : Option (SExp × SExp) :=
  match Pattern.matchTree [] pattern t with
  | .ok (some found) => do return (← found.lookup name, ← found.lookup name')
  | _ => none

theorem parts?_eq_some {pattern t x y : SExp} {name name' : String} :
    parts? pattern name name' t = some (x, y) ↔ ∃ found, Pattern.matchTree [] pattern t = .ok (some found) ∧
      found.lookup name = some x ∧ found.lookup name' = some y := by
  rw [parts?]
  split
  · rename_i found hfound
    simp [hfound, Option.bind_eq_some_iff]
  · rename_i hnone
    simp only [reduceCtorEq, false_iff]
    rintro ⟨found, hfound, -⟩
    exact hnone found hfound

/-- What is left behind an argument is smaller. -/
theorem sizeOf_lt_of_argument {t x y : SExp} (h : parts? argumentPattern "parm" "core" t = some (x, y)) :
    sizeOf y < sizeOf t := by
  obtain ⟨found, hfound, -, hy⟩ := parts?_eq_some.mp h
  obtain ⟨before, after, rfl, -⟩ := List.lookup_eq_some_iff.mp hy
  exact Pattern.sizeOf_lt_of_matchTree (by decide) (by decide) hfound _ (List.mem_append_right _ List.mem_cons_self)

end Currying

/-- The bound arguments in front of the environment's own, and what is consed onto. -/
def boundArguments (t : SExp) : List SExp × SExp :=
  match _ : Currying.parts? Currying.argumentPattern "parm" "core" t with
  | some (arg, core) =>
    let (args, last) := boundArguments core
    (arg :: args, last)
  | none => ([], t)
termination_by t
decreasing_by exact Currying.sizeOf_lt_of_argument ‹_›

/-- The program and the arguments that a curried program binds to it. -/
def uncurry (t : SExp) : Option (SExp × SExp) := do
  let (function, core) ← Currying.parts? Currying.functionPattern "function" "core" t
  let (args, last) := boundArguments core
  if last = .atom [1] then some (function, .ofList args) else none

end Clvm
