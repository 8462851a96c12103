import Clvm.Compiler.Module
import Clvm.Proofs.Assembler

/-!
# Linking through text

A module is linked by writing its parts as source, putting the texts into a larger one and assembling that. Each part keeps
its bounds there, whatever atoms it has. So the text is read to its end, and gives the tree of the parts.
-/

namespace Clvm.Compiler
open Node Token

/-- The environment in which a module runs its main expression: its own, behind the tree of the constants if it has one. -/
def linkedEnv (constants : Option SExp) : SExp := constants.elim .one fun tree => Form.cons tree .one

/-- The tree of a module: `(opt (q . (a main env)))`. -/
def linkedTree (main : SExp) (constants : Option SExp) : SExp :=
  .ofList [.atom Word.opt, Form.quote (Form.apply main (linkedEnv constants))]

theorem isPart_toSource (t : SExp) : IsPart t t.toSource := isPart_toSourceWith (fun _ _ h => h) t

theorem isPart_opt : IsPart (.atom Word.opt) "opt".toList := by
  have hword : IsWord "opt".toList := isWord_plain (by decide) (List.all_eq_true.mp (by decide))
  refine isPart_leaf ⟨hword, ?_, fun offset => ⟨_, readLeaf_symbol ?_ ?_ rfl offset, ?_⟩⟩
  · rintro _ ⟨⟩
    rfl
  · decide
  · decide
  · exact assemble_name (Text.decode?_encode _) (by decide) (by decide) offset

theorem isPart_one : IsPart .one ['1'] := isPart_atomText [1]

/-- The text of a module, bracketed as the reader takes it apart. -/
theorem linkedText_eq (mainText envText : List Char) :
    "(opt (q . (a ".toList ++ mainText ++ [' '] ++ envText ++ ")))".toList =
      '(' :: "opt".toList ++ (' ' :: ('(' :: ['q'] ++ (" . ".toList ++
        ('(' :: ['a'] ++ (' ' :: mainText ++ (' ' :: envText ++ [')']))) ++ [')'])) ++ [')']) := by
  simp

theorem envText_eq (treeText : List Char) :
    "(c ".toList ++ treeText ++ " 1)".toList = '(' :: ['c'] ++ (' ' :: treeText ++ (' ' :: ['1'] ++ [')'])) := by
  simp

theorem linkedSource_eq (main : SExp) (constants : Option SExp) : ∃ envText, IsPart (linkedEnv constants) envText ∧
    linkedSource main constants = "(opt (q . (a ".toList ++ main.toSource ++ [' '] ++ envText ++ ")))".toList := by
  cases constants with
  | none => exact ⟨['1'], isPart_one, rfl⟩
  | some tree =>
    refine ⟨"(c ".toList ++ tree.toSource ++ " 1)".toList, ?_, rfl⟩
    have hcons : IsPart (.atom Keyword.cons) ['c'] := isPart_leaf (isLeaf_keyword (by decide +kernel))
    rw [envText_eq]
    exact isPart_list hcons (isTail_cons (isPart_toSource tree) (isTail_cons isPart_one isTail_nil))

/-- The text that a module is linked from is one expression without a fault and nothing after it, and gives the tree of the
main expression and the constants. -/
theorem linkedSource_exact (main : SExp) (constants : Option SExp) :
    SExp.ofSource (linkedSource main constants) = .ok (linkedTree main constants) ∧
    (stream (linkedSource main constants)).fault = none ∧
    ∃ n, readStream (stream (linkedSource main constants)) = .ok (n, []) := by
  obtain ⟨envText, henv, htext⟩ := linkedSource_eq main constants
  have hquote : IsPart (.atom Keyword.quote) ['q'] := isPart_leaf (isLeaf_keyword (by decide +kernel))
  have happly : IsPart (.atom Keyword.apply) ['a'] := isPart_leaf (isLeaf_keyword (by decide +kernel))
  have hcall := isPart_list happly (isTail_cons (isPart_toSource main) (isTail_cons henv isTail_nil))
  have hargs := isTail_cons (isPart_list hquote (isTail_dot hcall)) isTail_nil
  have hall := isPart_list isPart_opt hargs
  obtain ⟨n, hread, hn⟩ := readStream_list (isPart_opt.reads.mono fun _ => Open.IsFresh.accepts) hargs.closes assembles_cons
  rw [htext, linkedText_eq]
  refine ⟨?_, hall.seals.fault, n, hread⟩
  rw [SExp.ofSource, Node.read, hread]
  exact hn

end Clvm.Compiler
