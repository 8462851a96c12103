import Clvm.Proofs.Machine.Exec

/-!
# What forms come to

`eval` is a form's cost and value in an environment, as a computation that may fail and may never end. One
equation for each kind of form gives it by the computations of the form's operands, so that later proofs
speak of forms and no longer of states and frames. Operands are computed from the last to the first.
-/

namespace Clvm.Machine

variable {σ : Type}

/-- A computation on a state that may fail and may never end; the state is kept when it fails. -/
abbrev Computation (σ : Type) := ExceptT Error (StateT σ Option)

/-- An action, which always ends. -/
def Computation.ofAction {α : Type} (a : Action σ α) : Computation σ α := ExceptT.mk fun w =>
  match a w with
  | .ok x w' => some (.ok x, w')
  | .error e w' => some (.error e, w')

/-- A result that does not touch the state. -/
def Computation.ofExcept {α : Type} (x : Except Error α) : Computation σ α := ExceptT.mk fun w => some (x, w)

/-- Goes on from a control with some frames waiting, after a cost. -/
def resume (ops : Operators σ) (control : Control) (frames : List Frame) (cost : Nat) : Computation σ Charged :=
  ExceptT.mk fun w => ((Config.plain ops).exec ⟨control, frames, cost, #[]⟩ w).map fun r => (r.1.outcome, r.2)

/-- The cost and value of a form in an environment. -/
def eval (ops : Operators σ) (form env : SExp) : Computation σ Charged := resume ops (.enter form env) [] 0

/-- The cost and value of an operator applied to a list of operands. -/
def applyOperator (ops : Operators σ) (op : Bytes) (args : SExp) : Computation σ Charged :=
  if op = Keyword.apply then
    match callOf? args with
    | some (form, env) => do
      let r ← eval ops form env
      return (90 + r.1, r.2)
    | none => throw (.eval .applyArity args)
  else .ofAction (ops.apply op args)

/-- Computes operands that are given from the last to the first, and puts their values in front of others. -/
def evalOnto (ops : Operators σ) (env : SExp) : List SExp → SExp → Computation σ (Nat × SExp)
  | [], done => pure (0, done)
  | x :: pending, done => do
    let r ← eval ops x env
    let args ← evalOnto ops env pending (.pair r.2 done)
    return (r.1 + args.1, args.2)

/-- The cost of all operands and the list of their values. -/
def evalOperands (ops : Operators σ) (env : SExp) (xs : List SExp) : Computation σ (Nat × SExp) :=
  evalOnto ops env xs.reverse .nil

/-! ### Going on from a control -/

section Resume
variable {ops : Operators σ}

theorem step_log_plain {s s' : State} {w w' : σ} (hlog : s.log = #[]) (h : step (.plain ops) s w = .ok s' w') :
    s'.log = #[] := by
  obtain ⟨control, frames, k, log⟩ := s
  subst hlog
  cases control with
  | enter form env => cases h; rfl
  | eval form env =>
    rw [step_eval rfl] at h
    cases hd : dispatch form env with
    | error e => rw [hd] at h; cases h
    | ok r => rw [hd] at h; cases h; rfl
  | apply op args =>
    by_cases hop : op = Keyword.apply
    · subst hop
      rw [step_call rfl] at h
      cases hcall : callOf? args with
      | none => rw [hcall] at h; cases h
      | some call => rw [hcall] at h; cases h; rfl
    · rw [step_operator rfl hop] at h
      cases ha : (Config.plain ops).operators.apply op args w with
      | error e w' => rw [ha] at h; cases h
      | ok r w' => rw [ha] at h; cases h; rfl
  | value v =>
    cases frames with
    | nil => cases h; rfl
    | cons frame frames =>
      cases frame with
      | report i =>
        cases h
        exact Array.eq_empty_of_size_eq_zero (Array.size_modify ..)
      | operands op env pending done => cases pending <;> cases h <;> rfl

/-- Nothing is recorded when nothing is watched. -/
theorem ends_log_plain {s : State} {w : σ} {r : Run × σ} (h : Ends (.plain ops) s w r) (hlog : s.log = #[]) :
    r.1.log = #[] := by
  induction h with
  | value => exact hlog
  | step _ hstep _ ih => exact ih (step_log_plain hlog hstep)
  | fail => exact hlog

theorem plain_operators : (Config.plain ops).operators = ops := rfl

theorem resume_value (v : SExp) (cost : Nat) : resume ops (.value v) [] cost = pure (cost, v) := by
  funext w
  simp only [resume, ExceptT.mk, exec_final]
  rfl

/-- Frames below wait for the value of what goes on above them. -/
theorem resume_append (control : Control) (frames below : List Frame) (cost k : Nat) :
    resume ops control (frames ++ below) (cost + k) =
      resume ops control frames k >>= fun r => resume ops (.value r.2) below (cost + r.1) := by
  funext w
  have hunder := exec_under (c := .plain ops) (s := ⟨control, frames, k, #[]⟩) (w := w) rfl below cost
  simp only [State.under] at hunder
  simp only [resume, ExceptT.mk, hunder, bind, ExceptT.bind, StateT.bind, ExceptT.bindCont]
  cases h : (Config.plain ops).exec ⟨control, frames, k, #[]⟩ w with
  | none => rfl
  | some r =>
    obtain ⟨⟨outcome, log⟩, w'⟩ := r
    have hlog : log = #[] := ends_log_plain (ends_of_exec h) rfl
    subst hlog
    cases outcome with
    | error e => rfl
    | ok r => rfl

theorem resume_step {control control' : Control} {frames frames' : List Frame} {cost cost' : Nat}
    (hfin : State.isFinal ⟨control, frames, cost, #[]⟩ = false)
    (h : ∀ w : σ, step (.plain ops) ⟨control, frames, cost, #[]⟩ w = .ok ⟨control', frames', cost', #[]⟩ w) :
    resume ops control frames cost = resume ops control' frames' cost' := by
  funext w
  simp only [resume, ExceptT.mk, exec_of_not_final hfin, h]

theorem resume_fail {control : Control} {frames : List Frame} {cost : Nat} {e : Error}
    (hfin : State.isFinal ⟨control, frames, cost, #[]⟩ = false)
    (h : ∀ w : σ, step (.plain ops) ⟨control, frames, cost, #[]⟩ w = .error e w) :
    resume ops control frames cost = throw e := by
  funext w
  simp only [resume, ExceptT.mk, exec_of_not_final hfin, h]
  rfl

theorem resume_enter (form env : SExp) (frames : List Frame) (cost : Nat) :
    resume ops (.enter form env) frames cost =
      eval ops form env >>= fun r => resume ops (.value r.2) frames (cost + r.1) :=
  resume_append (.enter form env) [] frames cost 0

theorem resume_apply (op : Bytes) (args : SExp) (frames : List Frame) (cost : Nat) :
    resume ops (.apply op args) frames cost =
      applyOperator ops op args >>= fun r => resume ops (.value r.2) frames (cost + r.1) := by
  by_cases hop : op = Keyword.apply
  · subst hop
    cases hcall : callOf? args with
    | none =>
      rw [resume_fail (e := .eval .applyArity args) rfl fun w => by rw [step_call rfl, hcall]]
      simp only [applyOperator, ↓reduceIte, hcall]
      rfl
    | some call =>
      rw [resume_step rfl fun w => by rw [step_call rfl, hcall], resume_enter]
      simp only [applyOperator, ↓reduceIte, hcall, bind_assoc, pure_bind, Nat.add_assoc]
  · funext w
    have hfin : State.isFinal ⟨.apply op args, frames, cost, #[]⟩ = false := rfl
    have hstep := step_operator (c := .plain ops) (w := w) rfl hop args frames cost #[]
    simp only [plain_operators] at hstep
    simp only [applyOperator, if_neg hop, resume, ExceptT.mk, exec_of_not_final hfin, hstep, bind, ExceptT.bind,
      StateT.bind, ExceptT.bindCont, Computation.ofAction]
    cases ops.apply op args w <;> rfl

/-- An operator whose operands are being computed goes on with those that are pending. -/
theorem resume_operands (op : Bytes) (env v : SExp) (pending : List SExp) (done : SExp) (frames : List Frame)
    (cost : Nat) :
    resume ops (.value v) (.operands op env pending done :: frames) cost =
      evalOnto ops env pending (.pair v done) >>= fun args =>
        resume ops (.apply op args.2) frames (cost + args.1) := by
  induction pending generalizing v done cost with
  | nil =>
    rw [resume_step rfl fun w => rfl]
    simp only [evalOnto, pure_bind, Nat.add_zero]
  | cons x pending ih =>
    rw [resume_step rfl fun w => rfl, resume_enter]
    simp only [evalOnto, bind_assoc, pure_bind, ih, Nat.add_assoc]

end Resume

/-! ### One equation for each kind of form -/

section Equations
variable {ops : Operators σ}

/-- Forms are evaluated at once, or dispatched to what they need. -/
theorem eval_eq_dispatch (form env : SExp) :
    eval ops form env = Computation.ofExcept (dispatch form env) >>= fun r =>
      resume ops r.2.1 r.2.2.toList r.1 := by
  have henter : eval ops form env = resume ops (.eval form env) [] 0 := resume_step rfl fun w => rfl
  rw [henter]
  cases hd : dispatch form env with
  | error e => exact resume_fail rfl fun w => by rw [step_eval rfl, hd]
  | ok r =>
    rw [resume_step rfl fun w => by rw [step_eval rfl, hd], List.append_nil, Nat.zero_add]
    rfl

theorem eval_atom (path : Bytes) (env : SExp) :
    eval ops (.atom path) env = Computation.ofExcept (lookup path env) := by
  rw [eval_eq_dispatch]
  cases h : lookup path env with
  | error e => simp only [dispatch, h]; rfl
  | ok r =>
    simp only [dispatch, h]
    exact resume_value r.2 r.1

theorem eval_quote (x env : SExp) : eval ops (.pair (.atom Keyword.quote) x) env = pure (20, x) := by
  rw [eval_eq_dispatch]
  exact resume_value x 20

/-- An operator is applied to the values of its operands, which have to be a list. -/
theorem eval_operator {op : Bytes} (hop : op ≠ Keyword.quote) (operands env : SExp) :
    eval ops (.pair (.atom op) operands) env = Computation.ofExcept operands.toList >>= fun xs =>
      evalOperands ops env xs >>= fun args =>
        applyOperator ops op args.2 >>= fun r => pure (1 + args.1 + r.1, r.2) := by
  rw [eval_eq_dispatch]
  cases hl : operands.toList with
  | error e => simp only [dispatch, if_neg hop, hl]; rfl
  | ok xs =>
    cases hr : xs.reverse with
    | nil =>
      have hd : dispatch (.pair (.atom op) operands) env = .ok (1, .apply op .nil, none) := by
        simp only [dispatch, if_neg hop, hl, bind, Except.bind, hr]
        rfl
      rw [hd]
      show resume ops (.apply op .nil) [] 1 = evalOperands ops env xs >>= _
      rw [resume_apply]
      simp only [evalOperands, hr, evalOnto, pure_bind, resume_value, Nat.add_zero]
    | cons x pending =>
      have hd : dispatch (.pair (.atom op) operands) env =
          .ok (1, .enter x env, some (.operands op env pending .nil)) := by
        simp only [dispatch, if_neg hop, hl, bind, Except.bind, hr]
        rfl
      rw [hd]
      show resume ops (.enter x env) [.operands op env pending .nil] 1 = evalOperands ops env xs >>= _
      rw [resume_enter]
      simp only [evalOperands, hr, evalOnto, bind_assoc, pure_bind, resume_operands, resume_apply, resume_value,
        Nat.add_assoc]

/-- The operator of `((op) ...)` is applied to its operands as they stand. -/
theorem eval_lone (op : Bytes) (operands env : SExp) :
    eval ops (.pair (.pair (.atom op) .nil) operands) env =
      applyOperator ops op operands >>= fun r => pure (90 + r.1, r.2) := by
  rw [eval_eq_dispatch]
  show resume ops (.apply op operands) [] 90 = _
  rw [resume_apply]
  simp only [resume_value]

theorem eval_not_lone {x y : SExp} (h : ∀ op, SExp.pair x y ≠ .pair (.atom op) .nil) (operands env : SExp) :
    eval ops (.pair (.pair x y) operands) env =
      throw (.eval .operatorNotLoneAtom (.pair (.pair x y) operands)) := by
  rw [eval_eq_dispatch]
  have hd : dispatch (.pair (.pair x y) operands) env =
      .error (.eval .operatorNotLoneAtom (.pair (.pair x y) operands)) := by
    cases x with
    | pair => rfl
    | atom op =>
      cases y with
      | pair => rfl
      | atom b =>
        cases b with
        | nil => exact (h op rfl).elim
        | cons => rfl
  rw [hd]
  rfl

theorem evalOnto_append (env : SExp) (xs ys : List SExp) (done : SExp) :
    evalOnto ops env (xs ++ ys) done = evalOnto ops env xs done >>= fun args =>
      evalOnto ops env ys args.2 >>= fun more => pure (args.1 + more.1, more.2) := by
  induction xs generalizing done with
  | nil =>
    simp only [List.nil_append, evalOnto, pure_bind, Nat.zero_add]
    exact (bind_pure _).symm
  | cons x xs ih => simp only [List.cons_append, evalOnto, ih, bind_assoc, pure_bind, Nat.add_assoc]

theorem evalOperands_cons (env x : SExp) (xs : List SExp) :
    evalOperands ops env (x :: xs) = evalOperands ops env xs >>= fun args =>
      eval ops x env >>= fun r => pure (args.1 + r.1, .pair r.2 args.2) := by
  simp only [evalOperands, List.reverse_cons, evalOnto_append, evalOnto, bind_assoc, pure_bind, Nat.add_zero]

end Equations

/-! ### Values, whatever they cost -/

/-- The value of a form in an environment. -/
def value (ops : Operators σ) (form env : SExp) : Computation σ SExp := (·.2) <$> eval ops form env

/-- The values of operands, which are computed from the last to the first. -/
def values (ops : Operators σ) (env : SExp) : List SExp → Computation σ (List SExp)
  | [] => pure []
  | x :: xs => do
    let vs ← values ops env xs
    let v ← value ops x env
    return v :: vs

/-- The value of an operator applied to a list of operands. -/
def applyValue (ops : Operators σ) (op : Bytes) (args : SExp) : Computation σ SExp :=
  if op = Keyword.apply then
    match callOf? args with
    | some (form, env) => value ops form env
    | none => throw (.eval .applyArity args)
  else (·.2) <$> Computation.ofAction (ops.apply op args)

section Values
variable {ops : Operators σ}

theorem map_applyOperator (op : Bytes) (args : SExp) :
    (·.2) <$> applyOperator ops op args = applyValue ops op args := by
  by_cases hop : op = Keyword.apply
  · simp only [applyOperator, applyValue, if_pos hop]
    cases callOf? args with
    | none => rfl
    | some call => simp only [value, map_eq_pure_bind, bind_assoc, pure_bind]
  · simp only [applyOperator, applyValue, if_neg hop]

theorem map_evalOperands (env : SExp) (xs : List SExp) :
    (·.2) <$> evalOperands ops env xs = SExp.ofList <$> values ops env xs := by
  induction xs with
  | nil => rfl
  | cons x xs ih =>
    have hrest : ∀ f : SExp → Computation σ SExp, evalOperands ops env xs >>= (fun args => f args.2) =
        values ops env xs >>= fun vs => f (.ofList vs) := fun f => by
      have := congrArg (· >>= f) ih
      simpa only [map_eq_pure_bind, bind_assoc, pure_bind] using this
    simp only [evalOperands_cons, values, value, map_eq_pure_bind, bind_assoc, pure_bind]
    exact hrest fun rest => eval ops x env >>= fun r => pure (.pair r.2 rest)

theorem value_atom (path : Bytes) (env : SExp) :
    value ops (.atom path) env = Computation.ofExcept ((·.2) <$> lookup path env) := by
  rw [value, eval_atom]
  cases lookup path env <;> rfl

theorem value_quote (x env : SExp) : value ops (.pair (.atom Keyword.quote) x) env = pure x := by
  rw [value, eval_quote, map_pure]

theorem value_operator {op : Bytes} (hop : op ≠ Keyword.quote) (operands env : SExp) :
    value ops (.pair (.atom op) operands) env = Computation.ofExcept operands.toList >>= fun xs =>
      values ops env xs >>= fun vs => applyValue ops op (.ofList vs) := by
  have hargs : ∀ xs, evalOperands ops env xs >>= (fun args => applyValue ops op args.2) =
      values ops env xs >>= fun vs => applyValue ops op (.ofList vs) := fun xs => by
    have := congrArg (· >>= applyValue ops op) (@map_evalOperands _ ops env xs)
    simpa only [map_eq_pure_bind, bind_assoc, pure_bind] using this
  rw [value, eval_operator hop]
  simp only [← hargs]
  simp only [← map_applyOperator, map_eq_pure_bind, bind_assoc, pure_bind]

theorem value_lone (op : Bytes) (operands env : SExp) :
    value ops (.pair (.pair (.atom op) .nil) operands) env = applyValue ops op operands := by
  rw [value, eval_lone, ← map_applyOperator]
  simp only [map_eq_pure_bind, bind_assoc, pure_bind]

theorem value_not_lone {x y : SExp} (h : ∀ op, SExp.pair x y ≠ .pair (.atom op) .nil) (operands env : SExp) :
    value ops (.pair (.pair x y) operands) env =
      throw (.eval .operatorNotLoneAtom (.pair (.pair x y) operands)) := by
  rw [value, eval_not_lone h]
  rfl

theorem value_list {op : Bytes} (hop : op ≠ Keyword.quote) (xs : List SExp) (env : SExp) :
    value ops (.pair (.atom op) (.ofList xs)) env = values ops env xs >>= fun vs => applyValue ops op (.ofList vs) := by
  rw [value_operator hop, SExp.toList_ofList]
  rfl

end Values
end Clvm.Machine
