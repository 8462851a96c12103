import Clvm.Form
import Clvm.Proofs.Machine.Meaning

/-!
# Values of forms

The value of a form with the machine's own operators, whatever it costs. Operators do not touch any state
there, so a value is a plain result: a tree, a failure, or no answer when the machine never stops. The
equations of `eval` become equations between such results. A value that only known operators are used for stays the same
when there are more operators.
-/

namespace Clvm.Machine

/-! ### Results of computations without a state -/

/-- What a computation without a state comes to. -/
def Computation.result {α : Type} (x : Computation Unit α) : Except Error α :=
  match x () with
  | some (r, _) => r
  | none => .error .outOfFuel

section Result
variable {α β : Type}

@[simp] theorem result_pure (a : α) : Computation.result (pure a) = .ok a := rfl

@[simp] theorem result_throw (e : Error) : Computation.result (throw e : Computation Unit α) = .error e := rfl

@[simp] theorem result_ofExcept (x : Except Error α) : Computation.result (.ofExcept x) = x := rfl

@[simp] theorem result_bind (x : Computation Unit α) (f : α → Computation Unit β) :
    (x >>= f).result = x.result >>= fun a => (f a).result := by
  simp only [Computation.result, bind, ExceptT.bind, ExceptT.mk, StateT.bind, ExceptT.bindCont]
  cases x () with
  | none => rfl
  | some r =>
    obtain ⟨r, w⟩ := r
    cases r <;> rfl

theorem ofAction_ofExcept {σ : Type} (x : Except Error α) :
    Computation.ofAction (σ := σ) (Action.ofExcept x) = .ofExcept x := by
  funext w
  cases x <;> rfl

end Result

/-! ### Values -/

theorem limited_zero {σ : Type} (ops : Operators σ) : Config.limited ops 0 = Config.plain ops := rfl

variable [Curve]

/-- The value of a form with the machine's own operators and without a limit on the cost. -/
def valueOf (form env : SExp) : Except Error SExp := (·.2) <$> evaluateBase form env 0 false

/-- The list of the values of operands, which are computed from the last to the first. -/
def valuesOf (env : SExp) : List SExp → Except Error (List SExp)
  | [] => .ok []
  | x :: xs => do
    let vs ← valuesOf env xs
    let v ← valueOf x env
    return v :: vs

/-- The cost and result of an operator other than `a`. -/
def baseApply (op : Bytes) (args : SExp) : Except Error Charged :=
  match Operator.ofBytes? op with
  | some o => o.apply args
  | none => UnknownOperator.apply op args

/-- The value of an operator applied to a list of operands. -/
def applied (op : Bytes) (args : SExp) : Except Error SExp :=
  if op = Keyword.apply then
    match callOf? args with
    | some (form, env) => valueOf form env
    | none => .error (.eval .applyArity args)
  else (·.2) <$> baseApply op args

/-- The machine's own operators do not touch the state. -/
theorem base_apply {σ : Type} (op : Bytes) (args : SExp) :
    (Operators.base (σ := σ)).apply op args = Action.ofExcept (baseApply op args) := by
  simp only [Operators.apply, Operators.base, baseApply]
  cases Operator.ofBytes? op <;> rfl

/-! ### Equations -/

theorem evaluateBase_eq (form env : SExp) :
    evaluateBase form env 0 false = (eval Operators.base form env).result := by
  simp only [evaluateBase, limited_zero, Bool.false_eq_true, ↓reduceIte, Computation.result, eval, resume, ExceptT.mk,
    State.start]
  cases (Config.plain Operators.base).exec ⟨.enter form env, [], 0, #[]⟩ () <;> rfl

theorem valueOf_eq (form env : SExp) : valueOf form env = (value Operators.base form env).result := by
  rw [valueOf, evaluateBase_eq, value, map_eq_pure_bind, map_eq_pure_bind, result_bind]
  rfl

theorem ok_of_valueOf {form env v : SExp} (h : valueOf form env = .ok v) :
    ∃ cost, evaluateBase form env 0 false = .ok (cost, v) := by
  rw [valueOf] at h
  cases hr : evaluateBase form env 0 false with
  | error e => rw [hr] at h; cases h
  | ok r =>
    rw [hr] at h
    injection h with h
    exact ⟨r.1, by rw [← h]⟩

theorem valueOf_of_ok {form env v : SExp} {cost : Nat} (h : evaluateBase form env 0 false = .ok (cost, v)) :
    valueOf form env = .ok v := by
  rw [valueOf, h]
  rfl

theorem exec_of_valueOf {form env v : SExp} (h : valueOf form env = .ok v) :
    ∃ cost log, (Config.plain (Operators.base (σ := Unit))).exec (.start form env) () = some (⟨.ok (cost, v), log⟩, ()) := by
  obtain ⟨cost, hok⟩ := ok_of_valueOf h
  rw [evaluateBase, limited_zero] at hok
  split at hok
  · rename_i r u hexec
    obtain ⟨outcome, log⟩ := r
    obtain rfl : outcome = .ok (cost, v) := hok
    exact ⟨cost, log, hexec⟩
  · cases hok

/-- A bounded run that comes to an answer gives the value. -/
theorem valueOf_of_run {fuel : Nat} {form env : SExp} {r : Except Error Charged}
    (h : (run (.plain (Operators.base (σ := Unit))) fuel (.start form env) ()).1.outcome = r)
    (hr : r ≠ .error .outOfFuel) : valueOf form env = (·.2) <$> r := by
  have hexec := exec_of_run (by rw [h]; exact hr)
  simp only [valueOf, evaluateBase, limited_zero, Bool.false_eq_true, ↓reduceIte, hexec, h]

/-! ### Runs with a state beside -/

section Beside
variable {σ : Type}

/-- What a step does with the machine's own operators, which do not touch the state beside. -/
theorem step_base (s : State) (w : σ) :
    step (.plain Operators.base) s w = match step (.plain (Operators.base (σ := Unit))) s () with
      | .ok s' _ => .ok s' w
      | .error e _ => .error e w := by
  obtain ⟨control, frames, k, log⟩ := s
  cases control with
  | enter form env => rfl
  | eval form env =>
    rw [step_eval rfl, step_eval rfl]
    cases dispatch form env <;> rfl
  | value v =>
    cases frames with
    | nil => rfl
    | cons frame frames =>
      cases frame with
      | report i => rfl
      | operands op env pending done => cases pending <;> rfl
  | apply op args =>
    by_cases hop : op = Keyword.apply
    · rw [hop, step_call rfl, step_call rfl]
      cases callOf? args <;> rfl
    · rw [step_operator rfl hop, step_operator rfl hop]
      simp only [plain_operators, base_apply]
      cases baseApply op args <;> rfl

theorem run_base (fuel : Nat) (s : State) (w : σ) :
    run (.plain Operators.base) fuel s w = ((run (.plain (Operators.base (σ := Unit))) fuel s ()).1, w) := by
  induction fuel generalizing s with
  | zero => rfl
  | succ fuel ih =>
    cases hfin : s.isFinal with
    | true =>
      obtain ⟨v, hs⟩ := eq_of_isFinal hfin
      rw [hs]
      rfl
    | false =>
      rw [run_succ_of_not_final hfin, run_succ_of_not_final hfin, step_base]
      cases step (.plain (Operators.base (σ := Unit))) s () with
      | error e _ => rfl
      | ok s' _ => exact ih s'

theorem evaluate_base_eq_ok {fuel : Nat} {form env : SExp} {r : Charged} {w w' : σ} :
    evaluate (.plain Operators.base) fuel form env w = .ok r w' ↔
      (run (.plain (Operators.base (σ := Unit))) fuel (.start form env) ()).1.outcome = .ok r ∧ w = w' := by
  rw [evaluate, run_base]
  cases (run (.plain (Operators.base (σ := Unit))) fuel (.start form env) ()).1 with
  | mk outcome log => cases outcome <;> simp

/-- What a bounded run answers is the value, and the state beside stays. -/
theorem valueOf_of_evaluate {fuel cost : Nat} {form env v : SExp} {w w' : σ}
    (h : evaluate (.plain Operators.base) fuel form env w = .ok (cost, v) w') : valueOf form env = .ok v ∧ w' = w := by
  obtain ⟨houtcome, rfl⟩ := evaluate_base_eq_ok.mp h
  exact ⟨valueOf_of_run houtcome nofun, rfl⟩

end Beside

/-! ### Larger tables -/

section Larger
variable {σ : Type}

/-- Operators among which are those of the machine. -/
def IncludesBase (ops : Operators σ) : Prop :=
  ∀ op o, Operator.ofBytes? op = some o → ∀ args, ops.apply op args = Action.ofExcept (o.apply args)

theorem includesBase_base : IncludesBase (Operators.base (σ := σ)) := by
  intro op o ho args
  rw [base_apply, baseApply, ho]

end Larger

/-! ### Equations of values -/

theorem applied_eq (op : Bytes) (args : SExp) : (applyValue Operators.base op args).result = applied op args := by
  by_cases hop : op = Keyword.apply
  · simp only [applyValue, applied, if_pos hop]
    cases callOf? args with
    | none => rfl
    | some call => exact (valueOf_eq call.1 call.2).symm
  · simp only [applyValue, applied, if_neg hop, base_apply, ofAction_ofExcept]
    cases baseApply op args <;> rfl

theorem valuesOf_eq (env : SExp) (xs : List SExp) : (values Operators.base env xs).result = valuesOf env xs := by
  induction xs with
  | nil => rfl
  | cons x xs ih =>
    simp only [values, valuesOf, result_bind, result_pure, ih, valueOf_eq]
    rfl

theorem valueOf_atom (path : Bytes) (env : SExp) : valueOf (.atom path) env = (·.2) <$> lookup path env := by
  rw [valueOf_eq, value_atom, result_ofExcept]

theorem valueOf_quote (x env : SExp) : valueOf (.pair (.atom Keyword.quote) x) env = .ok x := by
  rw [valueOf_eq, value_quote, result_pure]

theorem valueOf_operator {op : Bytes} (hop : op ≠ Keyword.quote) (operands env : SExp) :
    valueOf (.pair (.atom op) operands) env = operands.toList >>= fun xs =>
      valuesOf env xs >>= fun vs => applied op (.ofList vs) := by
  rw [valueOf_eq, value_operator hop]
  simp only [result_bind, result_ofExcept, valuesOf_eq, applied_eq]

theorem valueOf_lone (op : Bytes) (operands env : SExp) :
    valueOf (.pair (.pair (.atom op) .nil) operands) env = applied op operands := by
  rw [valueOf_eq, value_lone, applied_eq]

theorem valueOf_not_lone {x y : SExp} (h : ∀ op, SExp.pair x y ≠ .pair (.atom op) .nil) (operands env : SExp) :
    valueOf (.pair (.pair x y) operands) env =
      .error (.eval .operatorNotLoneAtom (.pair (.pair x y) operands)) := by
  rw [valueOf_eq, value_not_lone h, result_throw]

end Clvm.Machine
