import Clvm.Compiler.Defaults
import Clvm.Proofs.Compiler.Quasi
import Clvm.Proofs.Optimizer.Local

/-!
# The macro `list`

The code of the macro hands itself along in the environment to call itself on the rest of the operands. It turns operands
into nested calls of `c`. These are compiled by `com` while the program of the macro call runs, and then build the list.
-/

namespace Clvm.Compiler
open Machine

/-! ### Parts of the code

In the environment `(code operands)`, place 2 is the code and place 5 are the operands, 9 the first and 13 the rest of them. -/

/-- Runs the code at the front of the environment on the list of itself and some operands. -/
def callSelf (operands : SExp) : SExp :=
  Form.apply (Form.path 2) (Form.cons (Form.path 2) (Form.cons operands (Form.quote .nil)))

/-- Puts the first operand into a call of `c`, beside what the rest of the operands becomes. -/
def putFirst : SExp :=
  Form.cons (Form.quote (.atom Keyword.cons))
    (Form.cons (Form.path 9) (Form.cons (callSelf (Form.path 13)) (Form.quote .nil)))

/-- What is run on the list of itself and the operands that are left. -/
def listStep : SExp :=
  Form.apply (Form.choose (Form.path 5) (Form.quote putFirst) (Form.quote (Form.quote .nil))) Form.env

theorem listConstruction_eq : listConstruction =
    Form.apply (Form.quote (Form.apply (Form.quote (callSelf (Form.path 3))) (Form.cons (Form.quote listStep) Form.env)))
      Form.env := rfl

/-! ### Running the code -/

theorem isNil_of_ne {t : SExp} (h : t ≠ .nil) : t.isNil = false := by
  cases t with
  | pair x y => rfl
  | atom b =>
    cases b with
    | nil => exact absurd rfl h
    | cons c cs => rfl

section Running
variable [Curve] {σ : Type} {ops : Operators σ} (hops : IncludesBase ops)
include hops

theorem applyValue_of_known {op : Bytes} {o : Operator} (ho : Operator.ofBytes? op = some o) (hop : op ≠ Keyword.apply)
    (args : SExp) : applyValue ops op args = Computation.ofExcept (applied op args) := by
  simp only [applyValue, applied, if_neg hop, hops op o ho, ofAction_ofExcept, baseApply, ho]
  cases o.apply args <;> rfl

theorem value_cons_of_includesBase (x y env : SExp) :
    value ops (Form.cons x y) env = value ops y env >>= fun b => value ops x env >>= fun a => pure (.pair a b) :=
  value_cons_of_applyValue (fun a b => applyValue_of_known hops (o := .cons) rfl (by decide) (.ofList [a, b])) x y env

theorem value_choose (test yes no env : SExp) :
    value ops (Form.choose test yes no) env = value ops no env >>= fun n => value ops yes env >>= fun y =>
      value ops test env >>= fun t => pure (if t.isNil then n else y) := by
  have happly : ∀ t y n, applyValue ops [Operator.choose.code] (.ofList [t, y, n]) = pure (if t.isNil then n else y) := by
    intro t y n
    rw [applyValue_of_known hops (o := .choose) rfl (by decide), applied_choose]
    rfl
  show value ops (.pair (.atom [Operator.choose.code]) (.ofList [test, yes, no])) env = _
  rw [value_list (by decide)]
  simp only [values, bind_assoc, pure_bind, happly]

theorem value_callSelf (operands code more : SExp) :
    value ops (callSelf operands) (.pair code more) =
      value ops operands (.pair code more) >>= fun v => value ops code (.ofList [code, v]) := by
  have hcode : value ops (Form.path 2) (.pair code more) = pure code := value_path 2 _
  simp only [callSelf, value_apply, value_cons_of_includesBase hops, value_formQuote, hcode, pure_bind, bind_assoc]
  rfl

theorem value_listStep_eq (args : SExp) :
    value ops listStep (.ofList [listStep, args]) =
      value ops (if args.isNil then Form.quote .nil else putFirst) (.ofList [listStep, args]) := by
  have hself : value ops Form.env (.ofList [listStep, args]) = pure (.ofList [listStep, args]) := value_path 1 _
  have hargs : value ops (Form.path 5) (.ofList [listStep, args]) = pure args := value_path 5 _
  show value ops (Form.apply (Form.choose (Form.path 5) (Form.quote putFirst) (Form.quote (Form.quote .nil))) Form.env)
    (.ofList [listStep, args]) = _
  simp only [value_apply, value_choose hops, value_formQuote, hself, hargs, pure_bind]

theorem value_listStep_nil : value ops listStep (.ofList [listStep, .nil]) = pure .nil :=
  (value_listStep_eq hops .nil).trans (value_formQuote .nil _)

/-- As long as there are operands, the rest of them comes first and the first of them last. -/
theorem value_listStep_of_ne {args : SExp} (hargs : args ≠ .nil) :
    value ops listStep (.ofList [listStep, args]) =
      value ops (Form.path 13) (.ofList [listStep, args]) >>= fun rest =>
        value ops listStep (.ofList [listStep, rest]) >>= fun more =>
          value ops (Form.path 9) (.ofList [listStep, args]) >>= fun x => pure (Form.cons x more) := by
  have hcall := value_callSelf hops (Form.path 13) listStep (.ofList [args])
  rw [value_listStep_eq hops, isNil_of_ne hargs, if_neg Bool.false_ne_true]
  simp only [putFirst, value_cons_of_includesBase hops, value_formQuote, pure_bind, bind_assoc]
  exact congrArg (· >>= _) hcall |>.trans (bind_assoc _ _ _)

theorem value_listStep_pair (x y : SExp) :
    value ops listStep (.ofList [listStep, .pair x y]) =
      value ops listStep (.ofList [listStep, y]) >>= fun more => pure (Form.cons x more) := by
  have hfirst : value ops (Form.path 9) (.ofList [listStep, .pair x y]) = pure x := value_path 9 _
  have hrest : value ops (Form.path 13) (.ofList [listStep, .pair x y]) = pure y := value_path 13 _
  rw [value_listStep_of_ne hops SExp.noConfusion]
  simp only [hfirst, hrest, pure_bind]

theorem value_listStep_atom {b : Bytes} (hb : b ≠ []) :
    value ops listStep (.ofList [listStep, .atom b]) = throw (.eval .pathIntoAtom (.atom b)) := by
  have hrest : value ops (Form.path 13) (.ofList [listStep, .atom b]) = throw (.eval .pathIntoAtom (.atom b)) :=
    value_path 13 _
  rw [value_listStep_of_ne hops fun heq => hb (SExp.atom.inj heq), hrest]
  rfl

/-- The code nests the operands into calls of `c`, or fails at what ends them if that is not nil. -/
theorem value_listStep (args : SExp) :
    value ops listStep (.ofList [listStep, args]) =
      if args.terminator = [] then pure (args.items.foldr Form.cons .nil)
      else throw (.eval .pathIntoAtom (.atom args.terminator)) := by
  induction args with
  | atom b =>
    by_cases hb : b = []
    · subst hb
      exact value_listStep_nil hops
    · rw [value_listStep_atom hops hb, SExp.terminator, if_neg hb]
  | pair x y _ ih =>
    rw [value_listStep_pair hops, ih, SExp.terminator, SExp.items, List.foldr_cons]
    by_cases hy : y.terminator = []
    · rw [if_pos hy, if_pos hy, pure_bind]
    · rw [if_neg hy, if_neg hy]
      rfl

theorem value_listConstruction (args : SExp) :
    value ops listConstruction args = value ops listStep (.ofList [listStep, args]) := by
  have hself : value ops Form.env args = pure args := value_path 1 _
  have hargs : value ops (Form.path 3) (.pair listStep args) = pure args := value_path 3 _
  rw [listConstruction_eq, value_run hself, value_apply, value_cons_of_includesBase hops]
  simp only [hself, value_formQuote, pure_bind, value_callSelf hops, hargs]

theorem value_listConstruction_ofList (es : List SExp) :
    value ops listConstruction (.ofList es) = pure (es.foldr Form.cons .nil) := by
  rw [value_listConstruction hops, value_listStep hops, SExp.terminator_ofList, if_pos rfl, SExp.items_ofList]

theorem value_listConstruction_improper {args : SExp} (hargs : args.terminator ≠ []) :
    value ops listConstruction args = throw (.eval .pathIntoAtom (.atom args.terminator)) := by
  rw [value_listConstruction hops, value_listStep hops, if_neg hargs]

end Running

/-! ### Compiling calls of `c` -/

section Compiling
variable {scope : Scope}

theorem lowered_foldr_cons {es : List SExp} (hes : ∀ e ∈ es, Word.quote ∉ e.leaves) :
    Lowered (es.foldr Form.cons .nil) := by
  induction es with
  | nil => exact lowered_atom (by decide)
  | cons e es ih =>
    obtain ⟨he, hes⟩ := List.forall_mem_cons.mp hes
    exact lowered_cons (lowered_of_not_mem he) (ih hes)

theorem lowered_call {op : Bytes} {es : List SExp} (hop : op ≠ Word.quote) (hes : ∀ e ∈ es, Word.quote ∉ e.leaves) :
    Lowered (.pair (.atom op) (.ofList es)) := by
  refine lowered_pair (lowered_atom hop) ?_
  induction es with
  | nil => rfl
  | cons e es ih =>
    obtain ⟨he, hes⟩ := List.forall_mem_cons.mp hes
    exact (lowered_pair (lowered_of_not_mem he) (ih hes)).2

/-- Nested calls of `c` are compiled by their operands, in order. -/
theorem compile_foldr_cons (hcons : lookupMacro Keyword.cons scope.macros = .ok none)
    (hnil : lookupSymbol [] scope.symbols = .ok none) {es ps : List SExp} (hes : ∀ e ∈ es, Word.quote ∉ e.leaves) {k : Nat}
    {w w' : Session} (h : es.mapM (compile scope k) w = .ok ps w') :
    compile scope (k + es.length + 1) (es.foldr Form.cons .nil) w = .ok (ps.foldr Form.cons (Form.quote .nil)) w' := by
  induction es generalizing w ps with
  | nil =>
    cases h
    exact compile_word (by decide) hnil _ _
  | cons e es ih =>
    have hlow := lowered_foldr_cons hes
    obtain ⟨he, hes⟩ := List.forall_mem_cons.mp hes
    rw [List.mapM_cons] at h
    obtain ⟨p, w₁, hp, h⟩ := Action.bind_eq_ok.mp h
    obtain ⟨ps, w₂, hps, h⟩ := Action.bind_eq_ok.mp h
    cases h
    -- Each call of `c` takes one level of fuel more than the calls inside it.
    have hfirst : compile scope (k + es.length + 1) e w = .ok p w₁ := compile_of_le (by omega) hp
    exact compile_binary (by decide) (by decide) hlow hcons hfirst (ih hes hps)

/-- The program of a call of a macro compiles, when it is run, what the macro's code makes of the operands. -/
theorem compile_macroCall {op : Bytes} {code args : SExp} (hlow : Lowered (.pair (.atom op) args))
    (hcode : lookupMacro op scope.macros = .ok (some code)) (fuel : Nat) (w : Session) :
    compile scope (fuel + 1) (.pair (.atom op) args) w =
      .ok (Form.apply (scope.compileLater (Form.run code args)) Path.top.toSExp) w := by
  rw [compile, hlow.2]
  simp only [Action.lift_ok_bind, hcode]
  rfl

end Compiling

/-! ### Running the program of a call -/

section Calls
variable {settings : Settings} {run : Runner} {fuel : Nat}

theorem value_foldr_cons [Curve] {σ : Type} {ops : Operators σ} (hops : PairsValues ops) (ps : List SExp) (env : SExp) :
    value ops (ps.foldr Form.cons (Form.quote .nil)) env = SExp.ofList <$> values ops env ps := by
  induction ps with
  | nil => exact value_formQuote .nil env
  | cons p ps ih =>
    rw [List.foldr_cons, value_cons hops, ih, values]
    simp only [map_eq_pure_bind, bind_assoc, pure_bind]
    rfl

/-- While the compiler runs, a scope can be entered again. -/
theorem value_compileLater [Curve] (macros symbols source env : SExp) :
    value (operators settings run fuel) (Scope.compileLater ⟨macros, symbols, compileModule run fuel macros⟩ source) env =
      value (operators settings run fuel) source env >>= fun t =>
        Computation.ofAction (compile ⟨macros, symbols, compileModule run fuel macros⟩ fuel t) := by
  have happly : ∀ t, applyValue (operators settings run fuel) Word.com (.ofList [t, macros, symbols]) =
      Computation.ofAction (compile ⟨macros, symbols, compileModule run fuel macros⟩ fuel t) := by
    intro t
    have hcharged : (operators settings run fuel).apply Word.com (.ofList [t, macros, symbols]) =
        compile ⟨macros, symbols, compileModule run fuel macros⟩ fuel t >>= fun p => pure (1, p) := rfl
    rw [applyValue, if_neg (by decide), hcharged]
    funext w
    simp only [Computation.ofAction, bind, EStateM.bind, Functor.map, ExceptT.map, ExceptT.mk, StateT.bind]
    cases compile ⟨macros, symbols, compileModule run fuel macros⟩ fuel t w <;> rfl
  show value _ (.pair (.atom Word.com) (.ofList [source, Form.quote macros, Form.quote symbols])) env = _
  rw [value_list (by decide)]
  simp only [values, value_formQuote, bind_assoc, pure_bind, happly]

theorem value_macroCall [Curve] (macros symbols code args env : SExp) :
    value (operators settings run fuel)
        (Form.apply (Scope.compileLater ⟨macros, symbols, compileModule run fuel macros⟩ (Form.run code args))
          Path.top.toSExp) env =
      value (operators settings run fuel) code args >>= fun t =>
        Computation.ofAction (compile ⟨macros, symbols, compileModule run fuel macros⟩ fuel t) >>= fun p =>
          value (operators settings run fuel) p env := by
  rw [value_apply, value_top, pure_bind, value_compileLater, Form.run, value_run (value_formQuote args env), bind_assoc]

end Calls

/-! ### The default macro -/

theorem eq_ok_of_toOption {α : Type} {x : Except Error α} {a : α} (h : x.toOption = some a) : x = .ok a := by
  cases x with
  | error e => cases h
  | ok b =>
    cases h
    rfl

/-- The default table keeps the macro that is compiled by hand, and has none for `c`. -/
theorem exists_defaultMacros : ∃ table, defaultMacros = .ok table ∧
    lookupMacro Word.list table = .ok (some listConstruction) ∧ lookupMacro Keyword.cons table = .ok none := by
  have hfound : (defaultMacros.toOption.map fun table =>
      ((lookupMacro Word.list table).toOption, (lookupMacro Keyword.cons table).toOption)) =
        some (some (some listConstruction), some none) := by
    -- The table is closed: the kernel reads, compiles and runs the definitions that it is built from.
    decide +kernel
  obtain ⟨table, htable, hentries⟩ := Option.map_eq_some_iff.mp hfound
  obtain ⟨hlist, hcons⟩ := Prod.mk.inj hentries
  exact ⟨table, eq_ok_of_toOption htable, eq_ok_of_toOption hlist, eq_ok_of_toOption hcons⟩

/-- The default macro `list` with any number of operands. Its code nests them into calls of `c` around nil, and fails on
operands that do not end in nil. A call of the macro always compiles. Where nil is no symbol, running its program compiles
the operands in order and then does what their programs do from there, the last one first: it comes to the list of their
values, or fails as the first of them that fails. -/
theorem listMacro_builds_list [Curve] : ∃ table code,
    defaultMacros = .ok table ∧ lookupMacro Word.list table = .ok (some code) ∧
    (∀ {σ : Type} {ops : Operators σ}, IncludesBase ops →
      (∀ es, value ops code (.ofList es) = pure (es.foldr Form.cons .nil)) ∧
      ∀ args, args.terminator ≠ [] → value ops code args = throw (.eval .pathIntoAtom (.atom args.terminator))) ∧
    ∀ symbols, lookupSymbol [] symbols = .ok none → ∀ es, (∀ e ∈ es, Word.quote ∉ e.leaves) →
      ∀ settings run fuel k, k + es.length < fuel →
        let scope : Scope := ⟨table, symbols, compileModule run fuel table⟩
        let ops := operators settings run fuel
        ∃ program, (∀ w, Compiles scope (.pair (.atom Word.list) (.ofList es)) w program w) ∧
          ∀ w ps w', es.mapM (compile scope k) w = .ok ps w' →
            ∀ env, value ops program env w = (SExp.ofList <$> values ops env ps) w' := by
  obtain ⟨table, htable, hlist, hcons⟩ := exists_defaultMacros
  refine ⟨table, listConstruction, htable, hlist, fun hops => ?_, ?_⟩
  · exact ⟨value_listConstruction_ofList hops, fun args hargs => value_listConstruction_improper hops hargs⟩
  · intro symbols hnil es hes settings run fuel k hfuel scope ops
    refine ⟨Form.apply (scope.compileLater (Form.run listConstruction (.ofList es))) Path.top.toSExp, fun w => ?_,
      fun w ps w' hps env => ?_⟩
    · exact compiles_of_compile (compile_macroCall (lowered_call (by decide) hes) hlist 0 w)
    · have hcode := value_listConstruction_ofList (Optimizer.includesBase_operators settings run fuel) es
      have hcompile : compile scope fuel (es.foldr Form.cons .nil) w = .ok (ps.foldr Form.cons (Form.quote .nil)) w' :=
        compile_of_le hfuel (compile_foldr_cons hcons hnil hes hps)
      have hcompiled : Computation.ofAction (compile scope fuel (es.foldr Form.cons .nil)) w =
          some (.ok (ps.foldr Form.cons (Form.quote .nil)), w') := by
        simp only [Computation.ofAction, ExceptT.mk, hcompile]
      rw [value_macroCall, hcode, pure_bind, bind_apply_ok _ hcompiled,
        value_foldr_cons (pairsValues_operators settings run fuel)]

/-- A symbol, the whole environment and a constant, and operands that end in a constant. -/
theorem listMacro_builds_list_three :
    let symbols := SExp.ofList [.ofList [.atom [110], .atom [5]]]
    let es := [SExp.atom [110], .atom Word.all, .atom [7]]
    let ps := [SExp.atom [5], Path.top.toSExp, Form.quote (.atom [7])]
    let env := SExp.ofList [.atom [8], .atom [9]]
    let run : Runner := fun _ _ => throw .outOfFuel
    let ops := operators ⟨[], .ok .nil⟩ run 5
    lookupSymbol [] symbols = .ok none ∧ (∀ e ∈ es, Word.quote ∉ e.leaves) ∧ 1 + es.length < 5 ∧
    ∃ table code program, defaultMacros = .ok table ∧ lookupMacro Word.list table = .ok (some code) ∧
      IncludesBase ops ∧ value ops code (.ofList es) = pure (es.foldr Form.cons .nil) ∧
      value ops code (.pair (.atom [5]) (.atom [6])) = throw (.eval .pathIntoAtom (.atom [6])) ∧
      (∀ w, Compiles ⟨table, symbols, compileModule run 5 table⟩ (.pair (.atom Word.list) (.ofList es)) w program w) ∧
      ∀ w, es.mapM (compile ⟨table, symbols, compileModule run 5 table⟩ 1) w = .ok ps w ∧
        value ops program env w = some (.ok (.ofList [.atom [9], env, .atom [7]]), w) := by
  intro symbols es ps env run ops
  have hops : IncludesBase ops := Optimizer.includesBase_operators _ run 5
  have hquote : ∀ e ∈ es, Word.quote ∉ e.leaves := by decide
  obtain ⟨table, code, htable, hcode, hmachine, hcall⟩ := listMacro_builds_list
  obtain ⟨program, hprogram, hvalue⟩ := hcall symbols rfl es hquote ⟨[], .ok .nil⟩ run 5 1 (by decide)
  have hvalues : values ops env ps = pure [.atom [9], env, .atom [7]] := by
    have hsymbol : value ops (.atom [5]) env = pure (.atom [9]) := value_path 5 env
    simp only [ps, values, value_formQuote, value_top, hsymbol, pure_bind]
  refine ⟨rfl, hquote, by decide, table, code, program, htable, hcode, hops, (hmachine hops).1 es, ?_, hprogram,
    fun w => ⟨rfl, ?_⟩⟩
  · exact (hmachine hops).2 (.pair (.atom [5]) (.atom [6])) (by decide)
  · rw [hvalue w ps w rfl env, hvalues]
    rfl

end Clvm.Compiler
