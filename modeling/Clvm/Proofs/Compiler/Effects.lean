import Clvm.Compiler.Operators
import Clvm.Proofs.Machine.Exec
import Clvm.Proofs.Optimizer.Faithful

/-!
# What compiling does to a session

Whatever is compiled, optimised or run, a session changes in two ways only: reductions are recorded, which a pass of the
optimiser made, and symbol files are left. So a relation between sessions that holds across these two changes, and is
reflexive and transitive, holds across every run of the compiler that succeeds.
-/

namespace Clvm.Compiler
open Machine Optimizer

/-- A relation between sessions that recording reductions and leaving symbol files keep to. -/
structure Effect where
  rel : Session → Session → Prop
  refl : ∀ s, rel s s
  trans : ∀ {s t u}, rel s t → rel t u → rel s u
  record : ∀ s {r : Reduction}, r.Made → rel s { s with reductions := s.reductions.push r }
  write : ∀ (s : Session) {text : String} {store : Store}, s.store.write symbolFile text = .ok store →
    rel s { s with store }

/-- An action that, if it succeeds, only does to a session what a relation allows. -/
def Keeps (R : Effect) {α : Type} (x : Action Session α) : Prop := ∀ s a s', x s = .ok a s' → R.rel s s'

variable {R : Effect}

section Rules
variable {α β : Type} {x : Action Session α} {f : α → Action Session β}

theorem keeps_throw (e : Error) : Keeps R (throw e : Action Session α) := fun _ _ _ h => by cases h

/-- What ends in a failure has no result. -/
theorem keeps_bind_throw {e : α → Error} : Keeps R (x >>= fun a => (throw (e a) : Action Session β)) := by
  intro s b s' h
  obtain ⟨a, s₁, -, hthrow⟩ := Action.bind_eq_ok.mp h
  cases hthrow

theorem keeps_pure (a : α) : Keeps R (pure a : Action Session α) := by
  intro s a' s' h
  obtain ⟨-, rfl⟩ := Action.pure_eq_ok.mp h
  exact R.refl s

theorem keeps_lift (r : Except Error α) : Keeps R (liftM r : Action Session α) := by
  intro s a s' h
  obtain ⟨-, rfl⟩ := Action.lift_eq_ok.mp h
  exact R.refl s

theorem keeps_ofExcept (r : Except Error α) : Keeps R (Action.ofExcept r) := keeps_lift r

theorem keeps_bind (hx : Keeps R x) (hf : ∀ a, Keeps R (f a)) : Keeps R (x >>= f) := by
  intro s b s' h
  obtain ⟨a, s₁, ha, hb⟩ := Action.bind_eq_ok.mp h
  exact R.trans (hx s a s₁ ha) (hf a s₁ b s' hb)

theorem keeps_get : Keeps R (get : Action Session Session) := by
  intro s a s' h
  cases h
  exact R.refl s

theorem keeps_foldlM {step : β → α → Action Session β} (hstep : ∀ b a, Keeps R (step b a)) (xs : List α) (b : β) :
    Keeps R (xs.foldlM step b) := by
  induction xs generalizing b with
  | nil => exact keeps_pure b
  | cons x xs ih =>
    rw [List.foldlM_cons]
    exact keeps_bind (hstep b x) ih

theorem keeps_mapM (xs : List α) (hf : ∀ a, Keeps R (f a)) : Keeps R (xs.mapM f) := by
  induction xs with
  | nil => exact keeps_pure []
  | cons x xs ih =>
    rw [List.mapM_cons]
    exact keeps_bind (hf x) fun _ => keeps_bind ih fun _ => keeps_pure _

theorem keeps_writeSymbolFile (text : String) : Keeps R (Session.writeFile symbolFile text) := by
  intro s a s' h
  obtain ⟨store, s₁, hwrite, hmodify⟩ := Action.bind_eq_ok.mp h
  obtain ⟨_, s₂, hget, hwrite⟩ := Action.bind_eq_ok.mp hwrite
  cases hget
  obtain ⟨hstore, rfl⟩ := Action.ofExcept_eq_ok.mp hwrite
  cases hmodify
  exact R.write s hstore

end Rules

/-! ### Optimising -/

section Optimizing
variable {run : Runner} (hrun : ∀ form env, Keeps R (run form env))
include hrun

theorem keeps_applyPass {opt : SExp → Action Session SExp} (hopt : ∀ t, Keeps R (opt t)) (t : SExp) (pass : Pass) :
    Keeps R (applyPass run opt t pass) := by
  cases pass with
  | evaluateConstant =>
    refine keeps_bind (keeps_lift _) fun constant => ?_
    split
    · exact keeps_bind (hrun _ _) fun _ => keeps_pure _
    · exact keeps_pure _
  | changeVariables =>
    rw [applyPass, changeVariables]
    split
    · exact keeps_pure _
    · refine keeps_bind (keeps_lift _) fun moved => keeps_bind (keeps_lift _) fun constant => ?_
      split
      · exact hopt _
      · exact keeps_bind (keeps_lift _) fun xs => keeps_bind (keeps_mapM xs hopt) fun _ => keeps_pure _
  | optimizeChildren =>
    rw [applyPass, optimizeChildren.eq_def]
    split
    · exact keeps_pure _
    · split
      · exact keeps_pure _
      · exact keeps_bind (keeps_mapM _ hopt) fun _ => keeps_bind (keeps_lift _) fun _ => keeps_pure _
  | mergePath => exact keeps_ofExcept _
  | takeApart | unwrapApply | dropQuotedNil | dropAppliedNil => exact keeps_pure _

omit hrun in
theorem keeps_firstChange {apply : Pass → Action Session SExp} (happly : ∀ pass, Keeps R (apply pass)) (t : SExp)
    (passes : List Pass) : Keeps R (firstChange apply t passes) := by
  induction passes with
  | nil => exact keeps_pure _
  | cons pass passes ih =>
    refine keeps_bind (happly pass) fun t' => ?_
    split
    · exact ih
    · exact keeps_pure _

theorem keeps_optimize (fuel : Nat) (t : SExp) : Keeps R (optimize run fuel t) := by
  induction fuel generalizing t with
  | zero => exact keeps_throw _
  | succ fuel ih =>
    cases t with
    | atom b => exact keeps_pure _
    | pair x y =>
      intro s t' s' h
      rw [optimize] at h
      obtain ⟨change, s₁, hchange, h⟩ := Action.bind_eq_ok.mp h
      have hround := keeps_firstChange (keeps_applyPass hrun ih (.pair x y)) (.pair x y) Pass.all s change s₁ hchange
      cases change with
      | none =>
        obtain ⟨-, rfl⟩ := Action.pure_eq_ok.mp h
        exact hround
      | some change =>
        obtain ⟨pass, after⟩ := change
        obtain ⟨hne, s₀, hpass⟩ := firstChange_eq_some hchange
        have hmade : Reduction.Made ⟨pass, .pair x y, after⟩ := ⟨hne, run, fuel, s₀, s₁, hpass⟩
        obtain ⟨_, s₂, hrecord, h⟩ := Action.bind_eq_ok.mp h
        cases hrecord
        exact R.trans (R.trans hround (R.record s₁ hmade)) (ih after _ _ _ h)

end Optimizing

/-! ### Compiling -/

section Compiling
variable {run : Runner} (hrun : ∀ form env, Keeps R (run form env))
include hrun

theorem keeps_declare (fuel : Nat) (d : Declarations) (declaration : SExp) : Keeps R (declare run fuel d declaration) := by
  induction fuel generalizing d declaration with
  | zero => exact keeps_throw _
  | succ fuel ih =>
    rw [declare]
    refine keeps_bind (keeps_lift _) fun keyword => keeps_bind (keeps_lift _) fun rest =>
      keeps_bind (keeps_lift _) fun name => ?_
    split
    · refine keeps_bind (hrun _ _) fun ⟨_, content⟩ => ?_
      exact keeps_bind (keeps_foldlM ih _ _) fun d => keeps_bind (keeps_lift _) fun _ => keeps_pure d
    · exact keeps_ofExcept _

theorem keeps_declareAll (fuel : Nat) (d : Declarations) (source : SExp) : Keeps R (declareAll run fuel d source) := by
  fun_induction declareAll run fuel d source with
  | case1 => exact keeps_throw _
  | case2 => exact keeps_pure _
  | case3 d x more _ ih => exact keeps_bind (keeps_declare hrun fuel d x) ih

theorem keeps_collect (fuel : Nat) (source : SExp) : Keeps R (collect run fuel source) := by
  refine keeps_bind (keeps_lift _) fun parameters => keeps_bind (keeps_lift _) fun rest => ?_
  exact keeps_bind (keeps_declareAll hrun fuel _ rest) fun _ => keeps_pure _

theorem keeps_nameValues (table : SymbolNames) (programs : List (Option Bytes × SExp)) :
    Keeps R (nameValues run table programs) := by
  induction programs generalizing table with
  | nil => exact keeps_pure _
  | cons entry programs ih =>
    obtain ⟨name, program⟩ := entry
    rw [nameValues]
    refine keeps_bind (hrun _ _) fun ⟨_, v⟩ => ?_
    dsimp only
    split
    · exact keeps_throw _
    · split
      · exact keeps_throw _
      · exact ih _

theorem keeps_macroTableProgram (fuel : Nat) (table : SExp) (macros : List SExp) :
    Keeps R (macroTableProgram run fuel table macros) :=
  keeps_foldlM (fun _ _ => keeps_optimize hrun fuel _) _ _

theorem keeps_compileModule (fuel : Nat) (macros source : SExp) : Keeps R (compileModule run fuel macros source) := by
  refine keeps_bind (keeps_collect hrun fuel source) fun d => ?_
  refine keeps_bind (keeps_macroTableProgram hrun fuel macros d.macros) fun macroProgram => ?_
  refine keeps_bind (keeps_lift _) fun names => ?_
  refine keeps_bind (keeps_mapM _ fun ⟨name, function⟩ => keeps_bind (keeps_lift _) fun _ => keeps_pure _) fun compiled => ?_
  split
  · exact keeps_lift _
  · refine keeps_bind (keeps_bind (keeps_nameValues hrun _ _) fun _ => keeps_writeSymbolFile _) fun _ => ?_
    exact keeps_lift _

end Compiling

theorem keeps_compile {scope : Scope} (hmodule : ∀ source, Keeps R (scope.compileModule source)) (fuel : Nat) :
    (∀ source, Keeps R (compile scope fuel source)) ∧ ∀ level args, Keeps R (compileQuasi scope fuel level args) := by
  induction fuel with
  | zero => exact ⟨fun _ => keeps_throw _, fun _ _ => keeps_throw _⟩
  | succ fuel ih =>
    obtain ⟨ihc, ihq⟩ := ih
    refine ⟨fun source => ?_, fun level args => ?_⟩
    · rw [compile]
      refine keeps_bind (keeps_lift _) fun lowered => ?_
      split
      · exact keeps_ofExcept _
      · exact keeps_pure _
      · refine keeps_bind (keeps_lift _) fun code => ?_
        split
        · exact keeps_pure _
        · split
          · exact keeps_bind (ihq _ _) fun _ => keeps_pure _
          · split
            · exact keeps_pure _
            · split
              · exact keeps_pure _
              · split
                · exact keeps_bind (hmodule _) fun _ => keeps_pure _
                · split
                  · exact keeps_pure _
                  · refine keeps_bind (keeps_mapM _ ihc) fun compiled => keeps_bind (keeps_lift _) fun _ => ?_
                    split
                    · exact keeps_pure _
                    · refine keeps_bind (keeps_lift _) fun callee => ?_
                      split
                      · exact keeps_pure _
                      · exact keeps_pure _
                      · exact keeps_throw _
    · have hpair : ∀ x y : SExp, Keeps R (do
          let first ← compile scope fuel (.ofList [.atom Word.quasi, x])
          let rest ← compile scope fuel (.ofList [.atom Word.quasi, y])
          return Form.cons first rest) := fun x y =>
        keeps_bind (ihc _) fun _ => keeps_bind (ihc _) fun _ => keeps_pure _
      rw [compileQuasi]
      refine keeps_bind (keeps_lift _) fun template => ?_
      split
      · exact keeps_pure _
      · exact hpair _ _
      · split
        · exact keeps_bind (ihq _ _) fun _ => ihc _
        · split
          · split
            · exact keeps_bind (keeps_lift _) fun _ => ihc _
            · exact keeps_bind (ihq _ _) fun _ => ihc _
          · exact hpair _ _

/-! ### Runs -/

section Runs
variable {ops : Operators Session} (hops : ∀ op f, ops.known op = some f → ∀ args, Keeps R (f args))
include hops

theorem keeps_apply (op : Bytes) (args : SExp) : Keeps R (ops.apply op args) := by
  rw [Operators.apply]
  split
  · rename_i f hf
    exact hops op f hf args
  · exact keeps_ofExcept _

theorem keeps_step (s : State) : Keeps R (step (.plain ops) s) := by
  rw [step]
  split
  · split <;> exact keeps_pure _
  · exact keeps_ofExcept _
  · split
    · split
      · exact keeps_ofExcept _
      · exact keeps_throw _
    · exact keeps_bind (keeps_apply hops _ _) fun _ => keeps_lift _
  · split <;> exact keeps_pure _

theorem rel_run (fuel : Nat) (s : State) (w : Session) {r : Charged}
    (h : (run (.plain ops) fuel s w).1.outcome = .ok r) : R.rel w (run (.plain ops) fuel s w).2 := by
  induction fuel generalizing s w with
  | zero => cases h
  | succ fuel ih =>
    cases hfin : s.isFinal with
    | true =>
      obtain ⟨v, hs⟩ := eq_of_isFinal hfin
      rw [hs]
      exact R.refl w
    | false =>
      rw [run_succ_of_not_final hfin] at h ⊢
      cases hstep : step (.plain ops) s w with
      | error e w' =>
        rw [hstep] at h
        cases h
      | ok s' w' =>
        rw [hstep] at h
        exact R.trans (keeps_step hops s w s' w' hstep) (ih s' w' h)

theorem keeps_evaluate (fuel : Nat) (form env : SExp) : Keeps R (evaluate (.plain ops) fuel form env) := by
  intro w r w' h
  have hrun := rel_run hops fuel (.start form env) w (r := r)
  rw [evaluate] at h
  split at h
  · rename_i hr
    cases h
    rw [hr] at hrun
    exact hrun rfl
  · cases h

end Runs

theorem keeps_base [Curve] (op : Bytes) (f : SExp → Action Session Charged)
    (h : (Operators.base (σ := Session)).known op = some f) (args : SExp) : Keeps R (f args) := by
  simp only [Operators.base, Option.map_eq_some_iff] at h
  obtain ⟨o, -, rfl⟩ := h
  exact keeps_ofExcept _

/-! ### Operators of the compiler -/

section Operators
variable {settings : Settings} {run : Runner} (hrun : ∀ form env, Keeps R (run form env)) (fuel : Nat) (args : SExp)

include hrun in
theorem keeps_compileOperator : Keeps R (compileOperator settings run fuel args) := by
  have hdone : ∀ source macros symbols : SExp, Keeps R (do
      return (1, ← compile ⟨macros, symbols, compileModule run fuel macros⟩ fuel source)) := fun source macros symbols =>
    keeps_bind ((keeps_compile (fun _ => keeps_compileModule hrun fuel macros _) fuel).1 source) fun _ => keeps_pure _
  refine keeps_bind (keeps_lift _) fun source => keeps_bind (keeps_lift _) fun tables => ?_
  cases htables : tables.isNil with
  | true =>
    simp only [↓reduceIte]
    exact keeps_bind (keeps_lift _) fun _ => keeps_bind (keeps_pure _) fun _ => hdone _ _ _
  | false =>
    simp only [Bool.false_eq_true, ↓reduceIte]
    refine keeps_bind (keeps_lift _) fun _ => keeps_bind (keeps_lift _) fun more => ?_
    split
    · exact keeps_bind (keeps_pure _) fun _ => hdone _ _ _
    · exact keeps_bind (keeps_lift _) fun _ => hdone _ _ _

include hrun in
theorem keeps_optimizeOperator : Keeps R (optimizeOperator run fuel args) :=
  keeps_bind (keeps_lift _) fun _ => keeps_bind (keeps_optimize hrun fuel _) fun _ => keeps_pure _

theorem keeps_searchOperator : Keeps R (searchOperator settings args) := by
  refine keeps_bind (keeps_lift _) fun name => ?_
  dsimp only
  split
  · exact keeps_throw _
  · split
    · exact keeps_throw _
    · split
      · exact keeps_throw _
      · refine keeps_bind keeps_get fun _ => keeps_bind (keeps_lift _) fun found => ?_
        split
        · exact keeps_pure _
        · exact keeps_throw _

theorem keeps_readOperator : Keeps R (readOperator args) := by
  refine keeps_bind (keeps_lift _) fun _ => keeps_bind (keeps_lift _) fun name => ?_
  refine keeps_bind (keeps_bind keeps_get fun _ => keeps_ofExcept _) fun source => ?_
  exact keeps_bind (keeps_lift _) fun _ => keeps_pure _

theorem keeps_writeOperator : Keeps R (writeOperator args) := by
  refine keeps_bind (keeps_lift _) fun named => keeps_bind (keeps_lift _) fun _ => keeps_bind (keeps_lift _) fun _ => ?_
  exact keeps_bind (keeps_lift _) fun _ => keeps_bind_throw

end Operators

theorem keeps_known [Curve] {settings : Settings} {run : Runner} (hrun : ∀ form env, Keeps R (run form env)) (fuel : Nat)
    (op : Bytes) (f : SExp → Action Session Charged) (h : (operators settings run fuel).known op = some f) (args : SExp) :
    Keeps R (f args) := by
  simp only [operators] at h
  split at h
  · cases h
    exact keeps_compileOperator hrun fuel args
  · split at h
    · cases h
      exact keeps_optimizeOperator hrun fuel args
    · split at h
      · cases h
        exact keeps_searchOperator args
      · split at h
        · cases h
          exact keeps_readOperator args
        · split at h
          · cases h
            exact keeps_writeOperator args
          · exact keeps_base op f h args

/-- The runner of the compiler keeps to a relation. -/
theorem keeps_runner [Curve] (settings : Settings) (levels : Nat) (form env : SExp) :
    Keeps R (runner settings levels form env) := by
  induction levels generalizing form env with
  | zero => exact keeps_throw _
  | succ levels ih => exact keeps_evaluate (keeps_known ih levels) levels form env

end Clvm.Compiler
