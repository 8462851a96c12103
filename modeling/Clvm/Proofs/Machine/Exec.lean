import Clvm.Machine.Basic

/-!
# Runs without a bound

`Config.exec` steps until a state is final. `Ends` says the same as a relation, so that a run can be taken apart
step by step; a run of `run` that is not cut short agrees with both. Without a limit on the cost a step looks
at the topmost frame only, so a run above other frames is a run by itself, followed by what waits below it
(`exec_under`).
-/

namespace Clvm.Machine

variable {σ : Type} {c : Config σ} {s s' : State} {w w' : σ}

/-- A final state holds a value that no frame waits for. -/
def State.isFinal (s : State) : Bool :=
  match s.control, s.frames with
  | .value _, [] => true
  | _, _ => false

/-- The machine comes from a state to a result. -/
inductive Ends (c : Config σ) : State → σ → Run × σ → Prop where
  | value (v : SExp) (cost : Nat) (log : Array Entry) (w : σ) :
      Ends c ⟨.value v, [], cost, log⟩ w (⟨.ok (cost, v), log⟩, w)
  | step {s s' : State} {w w' : σ} {r : Run × σ} (hs : s.isFinal = false) (hstep : step c s w = .ok s' w')
      (h : Ends c s' w' r) : Ends c s w r
  | fail {s : State} {w w' : σ} {e : Error} (hs : s.isFinal = false) (hstep : step c s w = .error e w') :
      Ends c s w (⟨.error e, s.log⟩, w')

/-! ### The three ways to run -/

theorem eq_of_isFinal (h : s.isFinal = true) : ∃ v, s = ⟨.value v, [], s.cost, s.log⟩ := by
  obtain ⟨control, frames, cost, log⟩ := s
  cases control with
  | value v =>
    cases frames with
    | nil => exact ⟨v, rfl⟩
    | cons => cases h
  | _ => cases h

theorem exec_final (v : SExp) (cost : Nat) (log : Array Entry) :
    c.exec ⟨.value v, [], cost, log⟩ w = some (⟨.ok (cost, v), log⟩, w) := by
  rw [Config.exec]

theorem exec_of_not_final (h : s.isFinal = false) :
    c.exec s w = match step c s w with
      | .ok s' w' => c.exec s' w'
      | .error e w' => some (⟨.error e, s.log⟩, w') := by
  rw [Config.exec]
  obtain ⟨control, frames, cost, log⟩ := s
  cases control with
  | value v =>
    cases frames with
    | nil => cases h
    | cons => rfl
  | _ => rfl

theorem exec_of_ends {r : Run × σ} (h : Ends c s w r) : c.exec s w = some r := by
  induction h with
  | value v cost log w => exact exec_final v cost log
  | step hs hstep _ ih => rw [exec_of_not_final hs, hstep]; exact ih
  | fail hs hstep => rw [exec_of_not_final hs, hstep]

theorem ends_of_exec {r : Run × σ} (h : c.exec s w = some r) : Ends c s w r := by
  refine Config.exec.partial_correctness c (fun s w r => Ends c s w r) ?_ s w r h
  intro next ih s w r hr
  cases hfin : s.isFinal with
  | true =>
    obtain ⟨v, hs⟩ := eq_of_isFinal hfin
    rw [hs] at hr ⊢
    cases hr
    exact .value v _ _ w
  | false =>
    have hbody : (match step c s w with
        | .ok s' w' => next s' w'
        | .error e w' => some (⟨.error e, s.log⟩, w')) = some r := by
      rw [← hr]
      obtain ⟨control, frames, cost, log⟩ := s
      cases control with
      | value v =>
        cases frames with
        | nil => cases hfin
        | cons => rfl
      | _ => rfl
    cases hstep : step c s w with
    | ok s' w' =>
      rw [hstep] at hbody
      exact .step hfin hstep (ih s' w' r hbody)
    | error e w' =>
      rw [hstep] at hbody
      cases hbody
      exact .fail hfin hstep

theorem run_succ_of_not_final {fuel : Nat} (h : s.isFinal = false) :
    run c (fuel + 1) s w = match step c s w with
      | .ok s' w' => run c fuel s' w'
      | .error e w' => (⟨.error e, s.log⟩, w') := by
  obtain ⟨control, frames, cost, log⟩ := s
  cases control with
  | value v =>
    cases frames with
    | nil => cases h
    | cons => rfl
  | _ => rfl

/-- A bounded run that comes to an answer is the unbounded one. -/
theorem exec_of_run {fuel : Nat} (h : (run c fuel s w).1.outcome ≠ .error .outOfFuel) :
    c.exec s w = some (run c fuel s w) := by
  induction fuel generalizing s w with
  | zero => exact absurd rfl h
  | succ fuel ih =>
    cases hfin : s.isFinal with
    | true =>
      obtain ⟨v, hs⟩ := eq_of_isFinal hfin
      rw [hs]
      exact exec_final v _ _
    | false =>
      rw [run_succ_of_not_final hfin] at h ⊢
      rw [exec_of_not_final hfin]
      cases hstep : step c s w with
      | ok s' w' =>
        rw [hstep] at h
        exact ih h
      | error e w' => rfl

/-- A higher bound keeps a run that comes to an answer. -/
theorem run_of_le {k fuel : Nat} (hk : k ≤ fuel) (h : (run c k s w).1.outcome ≠ .error .outOfFuel) :
    run c fuel s w = run c k s w := by
  induction k generalizing fuel s w with
  | zero => exact absurd rfl h
  | succ k ih =>
    obtain ⟨n, rfl⟩ := Nat.exists_eq_add_of_le' hk
    rw [← Nat.add_assoc]
    cases hfin : s.isFinal with
    | true =>
      obtain ⟨v, hs⟩ := eq_of_isFinal hfin
      rw [hs]
      rfl
    | false =>
      rw [run_succ_of_not_final hfin] at h
      rw [run_succ_of_not_final hfin, run_succ_of_not_final hfin]
      cases hstep : step c s w with
      | ok s' w' =>
        rw [hstep] at h
        exact ih (Nat.le_add_left k n) h
      | error e w' => rfl

theorem evaluate_of_le {k fuel : Nat} (hk : k ≤ fuel) {form env : SExp} {r : Charged}
    (h : evaluate c k form env w = .ok r w') : evaluate c fuel form env w = .ok r w' := by
  have hanswer : (run c k (.start form env) w).1.outcome ≠ .error .outOfFuel := by
    rcases hrun : run c k (.start form env) w with ⟨⟨outcome, log⟩, w₁⟩
    rw [evaluate, hrun] at h
    cases outcome with
    | ok r₁ => simp
    | error e => cases h
  rw [evaluate, run_of_le hk hanswer]
  exact h

/-! ### Steps without a limit -/

/-- The form and the environment that `a` is given. -/
def callOf? : SExp → Option (SExp × SExp)
  | .pair form (.pair env (.atom _)) => some (form, env)
  | _ => none

theorem step_enter (form env : SExp) (frames : List Frame) (k : Nat) (log : Array Entry) :
    step c ⟨.enter form env, frames, k, log⟩ w =
      if c.watch form then .ok ⟨.eval form env, .report log.size :: frames, k, log.push ⟨form, env, none⟩⟩ w
      else .ok ⟨.eval form env, frames, k, log⟩ w := by
  simp only [step]
  split <;> rfl

theorem step_eval (hc : c.limit = none) (form env : SExp) (frames : List Frame) (k : Nat) (log : Array Entry) :
    step c ⟨.eval form env, frames, k, log⟩ w = match dispatch form env with
      | .ok (price, control, frame) => .ok ⟨control, frame.toList ++ frames, k + price, log⟩ w
      | .error e => .error e w := by
  simp only [step, hc]
  cases dispatch form env <;> rfl

theorem step_call (hc : c.limit = none) (args : SExp) (frames : List Frame) (k : Nat) (log : Array Entry) :
    step c ⟨.apply Keyword.apply args, frames, k, log⟩ w = match callOf? args with
      | some (form, env) => .ok ⟨.enter form env, frames, k + 90, log⟩ w
      | none => .error (.eval .applyArity args) w := by
  fun_cases callOf? args with
  | case1 form env b => simp only [step, hc, ↓reduceIte]; rfl
  | case2 args hargs => simp only [step, ↓reduceIte]; rfl

theorem step_operator (hc : c.limit = none) {op : Bytes} (hop : op ≠ Keyword.apply) (args : SExp)
    (frames : List Frame) (k : Nat) (log : Array Entry) :
    step c ⟨.apply op args, frames, k, log⟩ w = match c.operators.apply op args w with
      | .ok (price, v) w' => .ok ⟨.value v, frames, k + price, log⟩ w'
      | .error e w' => .error e w' := by
  simp only [step, hc, if_neg hop, bind, EStateM.bind]
  cases c.operators.apply op args w <;> rfl

/-! ### Runs above other frames -/

/-- The state with more frames below its own, and a cost that was there before. -/
def State.under (s : State) (below : List Frame) (cost : Nat) : State :=
  { s with frames := s.frames ++ below, cost := cost + s.cost }

theorem isFinal_under (h : s.isFinal = false) (below : List Frame) (cost : Nat) :
    (s.under below cost).isFinal = false := by
  obtain ⟨control, frames, k, log⟩ := s
  cases control with
  | value v =>
    cases frames with
    | nil => cases h
    | cons => rfl
  | _ => rfl

/-- A step looks at the topmost frame only, and without a limit not at the cost. -/
theorem step_under (hc : c.limit = none) (h : s.isFinal = false) (below : List Frame) (cost : Nat) :
    step c (s.under below cost) w = (EStateM.map (·.under below cost) (step c s)) w := by
  obtain ⟨control, frames, k, log⟩ := s
  cases control with
  | enter form env =>
    simp only [State.under, EStateM.map, step_enter]
    split <;> rfl
  | eval form env =>
    simp only [State.under, EStateM.map, step_eval hc]
    cases dispatch form env with
    | error e => rfl
    | ok r => simp only [List.append_assoc, Nat.add_assoc]
  | apply op args =>
    by_cases hop : op = Keyword.apply
    · subst hop
      simp only [State.under, EStateM.map, step_call hc]
      cases callOf? args with
      | none => rfl
      | some call => simp only [Nat.add_assoc]
    · simp only [State.under, EStateM.map, step_operator hc hop]
      cases c.operators.apply op args w with
      | error e w' => rfl
      | ok r w' => simp only [Nat.add_assoc]
  | value v =>
    cases frames with
    | nil => cases h
    | cons frame frames =>
      cases frame with
      | report i => rfl
      | operands op env pending done =>
        cases pending with
        | nil => rfl
        | cons x pending => rfl

/-- What a finished run goes on with: the frames below it take its value, and a failure is final. -/
def Run.continue (c : Config σ) (below : List Frame) (cost : Nat) (r : Run × σ) : Option (Run × σ) :=
  match r.1.outcome with
  | .ok (k, v) => c.exec ⟨.value v, below, cost + k, r.1.log⟩ r.2
  | .error e => some (⟨.error e, r.1.log⟩, r.2)

theorem continue_of_ends_under (hc : c.limit = none) {below : List Frame} {cost : Nat} {r : Run × σ} {t : State}
    (h : Ends c t w r) (ht : t = s.under below cost) :
    (c.exec s w).bind (Run.continue c below cost) = some r := by
  -- Along the longer run; its base case is where the run by itself is over.
  induction h generalizing s with
  | value v k log w =>
    obtain ⟨control, frames, k', log'⟩ := s
    simp only [State.under, State.mk.injEq] at ht
    obtain ⟨rfl, hframes, rfl, rfl⟩ := ht
    obtain ⟨rfl, rfl⟩ := List.append_eq_nil_iff.mp hframes.symm
    rw [exec_final]
    exact exec_final v _ _
  | @step t t' w w' r hs hstep hends ih =>
    cases hfin : s.isFinal with
    | true =>
      obtain ⟨v, hv⟩ := eq_of_isFinal hfin
      rw [hv, exec_final]
      show c.exec ⟨.value v, below, cost + s.cost, s.log⟩ w = some r
      have : t = ⟨.value v, below, cost + s.cost, s.log⟩ := by rw [ht, hv]; rfl
      rw [← this]
      exact exec_of_ends (.step hs hstep hends)
    | false =>
      rw [ht, step_under hc hfin] at hstep
      rw [exec_of_not_final hfin]
      cases hone : step c s w with
      | error e w₁ =>
        simp only [EStateM.map, hone] at hstep
        cases hstep
      | ok s₁ w₁ =>
        simp only [EStateM.map, hone] at hstep
        cases hstep
        exact ih rfl
  | @fail t w w' e hs hstep =>
    cases hfin : s.isFinal with
    | true =>
      obtain ⟨v, hv⟩ := eq_of_isFinal hfin
      rw [hv, exec_final]
      show c.exec ⟨.value v, below, cost + s.cost, s.log⟩ w = _
      have : t = ⟨.value v, below, cost + s.cost, s.log⟩ := by rw [ht, hv]; rfl
      rw [← this]
      exact exec_of_ends (.fail hs hstep)
    | false =>
      have hlog : t.log = s.log := by rw [ht]; rfl
      rw [ht, step_under hc hfin] at hstep
      rw [exec_of_not_final hfin, hlog]
      cases hone : step c s w with
      | error e' w₁ =>
        simp only [EStateM.map, hone] at hstep
        cases hstep
        rfl
      | ok s₁ w₁ =>
        simp only [EStateM.map, hone] at hstep
        cases hstep

theorem exec_under_of_ends (hc : c.limit = none) (below : List Frame) (cost : Nat) {r : Run × σ}
    (h : Ends c s w r) : c.exec (s.under below cost) w = Run.continue c below cost r := by
  induction h with
  | value v k log w => rfl
  | step hs hstep _ ih =>
    rw [exec_of_not_final (isFinal_under hs below cost), step_under hc hs]
    simp only [EStateM.map, hstep]
    exact ih
  | fail hs hstep =>
    rw [exec_of_not_final (isFinal_under hs below cost), step_under hc hs]
    simp only [EStateM.map, hstep]
    rfl

/-- A run above other frames is a run by itself, and then the frames below take its value. -/
theorem exec_under (hc : c.limit = none) (below : List Frame) (cost : Nat) :
    c.exec (s.under below cost) w = (c.exec s w).bind (Run.continue c below cost) := by
  cases h : c.exec s w with
  | some r => exact exec_under_of_ends hc below cost (ends_of_exec h)
  | none =>
    cases hu : c.exec (s.under below cost) w with
    | none => rfl
    | some r =>
      have := continue_of_ends_under hc (ends_of_exec hu) rfl
      rw [h] at this
      cases this

end Clvm.Machine
