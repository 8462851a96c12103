import Clvm.Proofs.Action
import Clvm.Proofs.Machine.Exec

/-!
# What a step does

Every way in which a step succeeds and every way in which it fails, as two relations, so that what runs keep can be
shown case by case. A limit on the cost only decides which of the two happens.
-/

namespace Clvm.Machine

variable {σ : Type} {c : Config σ} {s s' : State} {w w' : σ} {e : Error}

/-- A cost that a limit allows. -/
def Within (limit : Option Int) (total : Nat) : Prop := ∀ most, limit = some most → (total : Int) ≤ most

/-- A cost that a limit forbids, and the failure that tells so. -/
def Exceeds (limit : Option Int) (total : Nat) (e : Error) : Prop :=
  ∃ most, limit = some most ∧ most < (total : Int) ∧ e = .eval .costExceeded (.ofInt most)

theorem charge_eq_ok {limit : Option Int} {cost : Nat} {control : Control} {frames : List Frame} :
    s.charge limit cost control frames = .ok s' ↔
      Within limit (s.cost + cost) ∧ s' = ⟨control, frames, s.cost + cost, s.log⟩ := by
  cases limit with
  | none => simp [State.charge, Within, eq_comm]
  | some most =>
    simp only [State.charge, Within, Option.some.injEq, forall_eq']
    split
    · rename_i hover
      simp only [reduceCtorEq, false_iff, not_and]
      intro hle
      omega
    · rename_i hover
      simp only [Except.ok.injEq]
      exact ⟨fun h => ⟨by omega, h.symm⟩, fun h => h.2.symm⟩

theorem charge_eq_error {limit : Option Int} {cost : Nat} {control : Control} {frames : List Frame} :
    s.charge limit cost control frames = .error e ↔ Exceeds limit (s.cost + cost) e := by
  cases limit with
  | none => simp [State.charge, Exceeds]
  | some most =>
    simp only [State.charge, Exceeds, Option.some.injEq, exists_eq_left']
    split
    · rename_i hover
      simp only [Except.error.injEq]
      exact ⟨fun h => ⟨hover, h.symm⟩, fun h => h.2.symm⟩
    · rename_i hover
      simp only [reduceCtorEq, false_iff, not_and]
      intro hlt
      omega

/-- What a step of a state that is not final does when it succeeds. -/
inductive Steps (c : Config σ) : State → σ → State → σ → Prop where
  | record {form : SExp} (hwatch : c.watch form = true) (env : SExp) (frames : List Frame) (k : Nat) (log : Array Entry)
      (w : σ) :
      Steps c ⟨.enter form env, frames, k, log⟩ w
        ⟨.eval form env, .report log.size :: frames, k, log.push ⟨form, env, none⟩⟩ w
  | enter {form : SExp} (hwatch : c.watch form = false) (env : SExp) (frames : List Frame) (k : Nat) (log : Array Entry)
      (w : σ) :
      Steps c ⟨.enter form env, frames, k, log⟩ w ⟨.eval form env, frames, k, log⟩ w
  | eval {form env : SExp} {price : Nat} {control : Control} {frame : Option Frame}
      (hform : dispatch form env = .ok (price, control, frame)) (frames : List Frame) {k : Nat}
      (hcost : Within c.limit (k + price)) (log : Array Entry) (w : σ) :
      Steps c ⟨.eval form env, frames, k, log⟩ w ⟨control, frame.toList ++ frames, k + price, log⟩ w
  | call {args form env : SExp} (hcall : callOf? args = some (form, env)) (frames : List Frame) {k : Nat}
      (hcost : Within c.limit (k + 90)) (log : Array Entry) (w : σ) :
      Steps c ⟨.apply Keyword.apply args, frames, k, log⟩ w ⟨.enter form env, frames, k + 90, log⟩ w
  | operator {op : Bytes} (hop : op ≠ Keyword.apply) {args v : SExp} {price : Nat} {w w' : σ}
      (happly : c.operators.apply op args w = .ok (price, v) w') (frames : List Frame) {k : Nat}
      (hcost : Within c.limit (k + price)) (log : Array Entry) :
      Steps c ⟨.apply op args, frames, k, log⟩ w ⟨.value v, frames, k + price, log⟩ w'
  | report (v : SExp) (i : Nat) (frames : List Frame) (k : Nat) (log : Array Entry) (w : σ) :
      Steps c ⟨.value v, .report i :: frames, k, log⟩ w
        ⟨.value v, frames, k, log.modify i fun e => { e with result := some v }⟩ w
  | operands (v : SExp) (op : Bytes) (env done : SExp) (frames : List Frame) (k : Nat) (log : Array Entry) (w : σ) :
      Steps c ⟨.value v, .operands op env [] done :: frames, k, log⟩ w ⟨.apply op (.pair v done), frames, k, log⟩ w
  | operand (v : SExp) (op : Bytes) (env x : SExp) (pending : List SExp) (done : SExp) (frames : List Frame) (k : Nat)
      (log : Array Entry) (w : σ) :
      Steps c ⟨.value v, .operands op env (x :: pending) done :: frames, k, log⟩ w
        ⟨.enter x env, .operands op env pending (.pair v done) :: frames, k, log⟩ w

/-- What a step does when it fails. -/
inductive Fails (c : Config σ) : State → σ → Error → σ → Prop where
  | eval {form env : SExp} {e : Error} (hform : dispatch form env = .error e) (frames : List Frame) (k : Nat)
      (log : Array Entry) (w : σ) : Fails c ⟨.eval form env, frames, k, log⟩ w e w
  | evalCost {form env : SExp} {price : Nat} {control : Control} {frame : Option Frame}
      (hform : dispatch form env = .ok (price, control, frame)) (frames : List Frame) {k : Nat} {e : Error}
      (hcost : Exceeds c.limit (k + price) e) (log : Array Entry) (w : σ) :
      Fails c ⟨.eval form env, frames, k, log⟩ w e w
  | call {args : SExp} (hcall : callOf? args = none) (frames : List Frame) (k : Nat) (log : Array Entry) (w : σ) :
      Fails c ⟨.apply Keyword.apply args, frames, k, log⟩ w (.eval .applyArity args) w
  | callCost {args form env : SExp} (hcall : callOf? args = some (form, env)) (frames : List Frame) {k : Nat} {e : Error}
      (hcost : Exceeds c.limit (k + 90) e) (log : Array Entry) (w : σ) :
      Fails c ⟨.apply Keyword.apply args, frames, k, log⟩ w e w
  | operator {op : Bytes} (hop : op ≠ Keyword.apply) {args : SExp} {w w' : σ} {e : Error}
      (happly : c.operators.apply op args w = .error e w') (frames : List Frame) (k : Nat) (log : Array Entry) :
      Fails c ⟨.apply op args, frames, k, log⟩ w e w'
  | operatorCost {op : Bytes} (hop : op ≠ Keyword.apply) {args v : SExp} {price : Nat} {w w' : σ}
      (happly : c.operators.apply op args w = .ok (price, v) w') (frames : List Frame) {k : Nat} {e : Error}
      (hcost : Exceeds c.limit (k + price) e) (log : Array Entry) : Fails c ⟨.apply op args, frames, k, log⟩ w e w'

/-! ### The relations and the function -/

theorem step_eval_charge (form env : SExp) (frames : List Frame) (k : Nat) (log : Array Entry) :
    step c ⟨.eval form env, frames, k, log⟩ = Action.ofExcept (dispatch form env >>= fun r =>
      State.charge ⟨.eval form env, frames, k, log⟩ c.limit r.1 r.2.1 (r.2.2.toList ++ frames)) := rfl

theorem step_call_charge (args : SExp) (frames : List Frame) (k : Nat) (log : Array Entry) :
    step c ⟨.apply Keyword.apply args, frames, k, log⟩ =
      Action.ofExcept ((callOf? args).elim (.error (.eval .applyArity args)) fun call =>
        State.charge ⟨.apply Keyword.apply args, frames, k, log⟩ c.limit 90 (.enter call.1 call.2) frames) := by
  fun_cases callOf? args with
  | case1 form env b => simp only [step, ↓reduceIte]; rfl
  | case2 args hargs => simp only [step, ↓reduceIte]; rfl

theorem step_operator_charge {op : Bytes} (hop : op ≠ Keyword.apply) (args : SExp) (frames : List Frame) (k : Nat)
    (log : Array Entry) :
    step c ⟨.apply op args, frames, k, log⟩ = c.operators.apply op args >>= fun r =>
      Action.ofExcept (State.charge ⟨.apply op args, frames, k, log⟩ c.limit r.1 (.value r.2) frames) := by
  simp only [step, if_neg hop]
  rfl

/-- What operators do matters only where one is applied. -/
theorem step_withOperators {ops : Operators σ} (h : ∀ op args, s.control = .apply op args → op ≠ Keyword.apply →
    ops.apply op args = c.operators.apply op args) (w : σ) : step { c with operators := ops } s w = step c s w := by
  obtain ⟨control, frames, k, log⟩ := s
  cases control with
  | apply op args =>
    by_cases hop : op = Keyword.apply
    · subst hop
      rw [step_call_charge, step_call_charge]
    · rw [step_operator_charge hop, step_operator_charge hop, h op args rfl hop]
  | _ => rfl

theorem steps_of_step (hs : s.isFinal = false) (h : step c s w = .ok s' w') : Steps c s w s' w' := by
  obtain ⟨control, frames, k, log⟩ := s
  cases control with
  | enter form env =>
    rw [step_enter] at h
    cases hwatch : c.watch form with
    | true => rw [hwatch] at h; cases h; exact .record hwatch env frames k log _
    | false => rw [hwatch] at h; cases h; exact .enter hwatch env frames k log _
  | eval form env =>
    rw [step_eval_charge, Action.ofExcept_eq_ok] at h
    obtain ⟨h, rfl⟩ := h
    cases hform : dispatch form env with
    | error e => rw [hform] at h; cases h
    | ok r =>
      rw [hform] at h
      obtain ⟨hcost, rfl⟩ := charge_eq_ok.mp h
      exact .eval hform frames hcost log _
  | apply op args =>
    by_cases hop : op = Keyword.apply
    · subst hop
      rw [step_call_charge, Action.ofExcept_eq_ok] at h
      obtain ⟨h, rfl⟩ := h
      cases hcall : callOf? args with
      | none => rw [hcall] at h; cases h
      | some call =>
        rw [hcall] at h
        obtain ⟨hcost, rfl⟩ := charge_eq_ok.mp h
        exact .call hcall frames hcost log _
    · rw [step_operator_charge hop, Action.bind_eq_ok] at h
      obtain ⟨r, w₁, happly, h⟩ := h
      obtain ⟨hcharge, rfl⟩ := Action.ofExcept_eq_ok.mp h
      obtain ⟨hcost, rfl⟩ := charge_eq_ok.mp hcharge
      exact .operator hop happly frames hcost log
  | value v =>
    cases frames with
    | nil => cases hs
    | cons frame frames =>
      cases frame with
      | report i => cases h; exact .report v i frames k log _
      | operands op env pending done =>
        cases pending with
        | nil => cases h; exact .operands v op env done frames k log _
        | cons x pending => cases h; exact .operand v op env x pending done frames k log _

theorem step_of_steps (h : Steps c s w s' w') : step c s w = .ok s' w' := by
  cases h with
  | record hwatch => rw [step_enter, hwatch]; rfl
  | enter hwatch => rw [step_enter, hwatch]; rfl
  | eval hform frames hcost =>
    rw [step_eval_charge, hform]
    exact Action.ofExcept_eq_ok.mpr ⟨charge_eq_ok.mpr ⟨hcost, rfl⟩, rfl⟩
  | call hcall frames hcost =>
    rw [step_call_charge, hcall]
    exact Action.ofExcept_eq_ok.mpr ⟨charge_eq_ok.mpr ⟨hcost, rfl⟩, rfl⟩
  | operator hop happly frames hcost =>
    rw [step_operator_charge hop]
    exact Action.bind_eq_ok.mpr ⟨_, _, happly, Action.ofExcept_eq_ok.mpr ⟨charge_eq_ok.mpr ⟨hcost, rfl⟩, rfl⟩⟩
  | report => rfl
  | operands => rfl
  | operand => rfl

theorem isFinal_of_steps (h : Steps c s w s' w') : s.isFinal = false := by
  cases h <;> rfl

theorem isFinal_of_fails (h : Fails c s w e w') : s.isFinal = false := by
  cases h <;> rfl

theorem fails_of_step (h : step c s w = .error e w') : Fails c s w e w' := by
  obtain ⟨control, frames, k, log⟩ := s
  cases control with
  | enter form env =>
    rw [step_enter] at h
    split at h <;> cases h
  | eval form env =>
    rw [step_eval_charge, Action.ofExcept_eq_error] at h
    obtain ⟨h, rfl⟩ := h
    cases hform : dispatch form env with
    | error e => rw [hform] at h; cases h; exact .eval hform frames k log _
    | ok r =>
      rw [hform] at h
      exact .evalCost hform frames (charge_eq_error.mp h) log _
  | apply op args =>
    by_cases hop : op = Keyword.apply
    · subst hop
      rw [step_call_charge, Action.ofExcept_eq_error] at h
      obtain ⟨h, rfl⟩ := h
      cases hcall : callOf? args with
      | none => rw [hcall] at h; cases h; exact .call hcall frames k log _
      | some call =>
        rw [hcall] at h
        exact .callCost hcall frames (charge_eq_error.mp h) log _
    · rw [step_operator_charge hop, Action.bind_eq_error] at h
      rcases h with happly | ⟨r, w₁, happly, h⟩
      · exact .operator hop happly frames k log
      · obtain ⟨hcharge, rfl⟩ := Action.ofExcept_eq_error.mp h
        exact .operatorCost hop happly frames (charge_eq_error.mp hcharge) log
  | value v =>
    cases frames with
    | nil => cases h
    | cons frame frames =>
      cases frame with
      | report i => cases h
      | operands op env pending done => cases pending <;> cases h

theorem step_of_fails (h : Fails c s w e w') : step c s w = .error e w' := by
  cases h with
  | eval hform => rw [step_eval_charge, hform]; rfl
  | evalCost hform frames hcost =>
    rw [step_eval_charge, hform]
    exact Action.ofExcept_eq_error.mpr ⟨charge_eq_error.mpr hcost, rfl⟩
  | call hcall => rw [step_call_charge, hcall]; rfl
  | callCost hcall frames hcost =>
    rw [step_call_charge, hcall]
    exact Action.ofExcept_eq_error.mpr ⟨charge_eq_error.mpr hcost, rfl⟩
  | operator hop happly =>
    rw [step_operator_charge hop]
    exact Action.bind_eq_error.mpr (.inl happly)
  | operatorCost hop happly frames hcost =>
    rw [step_operator_charge hop]
    exact Action.bind_eq_error.mpr
      (.inr ⟨_, _, happly, Action.ofExcept_eq_error.mpr ⟨charge_eq_error.mpr hcost, rfl⟩⟩)

end Clvm.Machine
