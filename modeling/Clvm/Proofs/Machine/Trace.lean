import Mathlib.Data.List.Forall2
import Clvm.Command.Execute
import Clvm.Proofs.Machine.Step

/-!
# Tracing

A trace adds frames that report a value and pass it on. Without those frames, and without the log, a traced run is the
run that is not traced, step for step. A frame that reports waits for the value of the evaluation that its entry
records: what stands above it is that evaluation by itself. This holds at every moment of a run, also of one that fails
or exceeds the limit on the cost.
-/

namespace Clvm.Machine

variable {σ : Type} {c : Config σ} {s s' : State} {w w' : σ}

/-! ### Runs without their reports -/

/-- Whether a frame reports the value instead of using it. -/
def Frame.isReport : Frame → Bool
  | .report _ => true
  | .operands .. => false

/-- The frames that use the value. -/
def waiting (frames : List Frame) : List Frame := frames.filter (!·.isReport)

@[simp] theorem waiting_append (above below : List Frame) : waiting (above ++ below) = waiting above ++ waiting below :=
  List.filter_append ..

/-- The state without reports and log. -/
def State.bare (s : State) : State := ⟨s.control, waiting s.frames, s.cost, #[]⟩

/-- Whether a value is about to be reported. -/
def State.reports (s : State) : Bool :=
  match s.control, s.frames with
  | .value _, .report _ :: _ => true
  | _, _ => false

/-- The same machine with some limit and without a trace. -/
def Config.quiet (c : Config σ) (limit : Option Int) : Config σ := ⟨c.operators, limit, fun _ => false⟩

/-- The only frame that evaluating a form needs holds operands. -/
theorem waiting_of_dispatch {form env : SExp} {price : Nat} {control : Control} {frame : Option Frame}
    (h : dispatch form env = .ok (price, control, frame)) : waiting frame.toList = frame.toList := by
  have hreport : ∀ i, dispatch form env ≠ .ok (price, control, some (.report i)) := by
    intro i
    fun_cases dispatch form env with
    | case1 path => cases lookup path env <;> exact nofun
    | case2 => exact nofun
    | case3 op operands hop =>
      cases operands.toList with
      | error e => exact nofun
      | ok xs => simp only [bind, Except.bind]; split <;> exact nofun
    | case4 => exact nofun
    | case5 => exact nofun
  cases frame with
  | none => rfl
  | some f =>
    cases f with
    | operands => rfl
    | report i => exact absurd h (hreport i)

/-- Apart from reports, a traced step is the step that is not traced. -/
theorem Steps.bare (h : Steps c s w s' w') :
    s.reports = true ∧ s'.bare = s.bare ∧ w' = w ∨ Steps (c.quiet c.limit) s.bare w s'.bare w' := by
  cases h with
  | record hwatch env frames k log => exact .inr (.enter rfl env (waiting frames) k #[] w)
  | enter hwatch env frames k log => exact .inr (.enter rfl env (waiting frames) k #[] w)
  | eval hform frames hcost log =>
    refine .inr ?_
    rw [State.bare, State.bare, waiting_append, waiting_of_dispatch hform]
    exact Steps.eval (c := c.quiet c.limit) hform (waiting frames) hcost #[] w
  | call hcall frames hcost log => exact .inr (Steps.call (c := c.quiet c.limit) hcall (waiting frames) hcost #[] w)
  | operator hop happly frames hcost log =>
    exact .inr (Steps.operator (c := c.quiet c.limit) hop happly (waiting frames) hcost #[])
  | report v i frames k log => exact .inl ⟨rfl, rfl, rfl⟩
  | operands v op env done frames k log => exact .inr (.operands v op env done (waiting frames) k #[] w)
  | operand v op env x pending done frames k log =>
    exact .inr (.operand v op env x pending done (waiting frames) k #[] w)

theorem Steps.bare_of_not_reports (h : Steps c s w s' w') (hreports : s.reports = false) :
    Steps (c.quiet c.limit) s.bare w s'.bare w' := by
  rcases h.bare with ⟨htrue, -⟩ | hquiet
  · rw [hreports] at htrue
    cases htrue
  · exact hquiet

theorem Steps.of_reports (h : Steps c s w s' w') (hreports : s.reports = true) :
    s'.control = s.control ∧ s'.cost = s.cost ∧ w' = w ∧ ∃ i, s.frames = .report i :: s'.frames := by
  cases h with
  | report v i frames k log => exact ⟨rfl, rfl, rfl, i, rfl⟩
  | _ => cases hreports

theorem Fails.bare {e : Error} (h : Fails c s w e w') : Fails (c.quiet c.limit) s.bare w e w' := by
  cases h with
  | eval hform frames k log => exact .eval hform (waiting frames) k #[] w
  | evalCost hform frames hcost log => exact Fails.evalCost (c := c.quiet c.limit) hform (waiting frames) hcost #[] w
  | call hcall frames k log => exact .call hcall (waiting frames) k #[] w
  | callCost hcall frames hcost log => exact Fails.callCost (c := c.quiet c.limit) hcall (waiting frames) hcost #[] w
  | operator hop happly frames k log => exact Fails.operator (c := c.quiet c.limit) hop happly (waiting frames) k #[]
  | operatorCost hop happly frames hcost log =>
    exact Fails.operatorCost (c := c.quiet c.limit) hop happly (waiting frames) hcost #[]

theorem not_isFinal_of_bare (h : s.bare.isFinal = false) : s.isFinal = false := by
  cases hf : s.isFinal with
  | false => rfl
  | true =>
    obtain ⟨v, hv⟩ := eq_of_isFinal hf
    rw [hv] at h
    cases h

theorem isFinal_of_bare (hreports : s.reports = false) (h : s.bare.isFinal = true) : s.isFinal = true := by
  obtain ⟨control, frames, k, log⟩ := s
  cases control with
  | value v =>
    cases frames with
    | nil => rfl
    | cons frame frames =>
      cases frame with
      | report i => cases hreports
      | operands => cases h
  | _ => cases h

/-! ### Outcomes -/

theorem Ends.bare {r : Run × σ} (h : Ends c s w r) : Ends (c.quiet c.limit) s.bare w (⟨r.1.outcome, #[]⟩, r.2) := by
  induction h with
  | value v cost log w => exact .value v cost #[] w
  | step hs hstep _ ih =>
    rcases (steps_of_step hs hstep).bare with ⟨-, hbare, rfl⟩ | hquiet
    · rw [← hbare]
      exact ih
    · exact .step (isFinal_of_steps hquiet) (step_of_steps hquiet) ih
  | fail hs hstep =>
    have hquiet := (fails_of_step hstep).bare
    exact .fail (isFinal_of_fails hquiet) (step_of_fails hquiet)

/-- A run may be taken up after the reports that are due. -/
theorem ends_of_reports (c : Config σ) (s : State) (w : σ) :
    ∃ s₀, s₀.reports = false ∧ s₀.bare = s.bare ∧ ∀ r, Ends c s₀ w r → Ends c s w r := by
  obtain ⟨control, frames, k, log⟩ := s
  cases control with
  | value v =>
    induction frames generalizing log with
    | nil => exact ⟨_, rfl, rfl, fun _ h => h⟩
    | cons frame frames ih =>
      cases frame with
      | operands => exact ⟨_, rfl, rfl, fun _ h => h⟩
      | report i =>
        obtain ⟨s₀, hreports, hbare, hends⟩ := ih (log.modify i fun e => { e with result := some v })
        exact ⟨s₀, hreports, hbare, fun r h => .step rfl rfl (hends r h)⟩
  | _ => exact ⟨_, rfl, rfl, fun _ h => h⟩

theorem ends_of_bare {t : State} {r : Run × σ} (h : Ends (c.quiet c.limit) t w r) (ht : s.bare = t) :
    ∃ log, Ends c s w (⟨r.1.outcome, log⟩, r.2) := by
  -- At each step the traced run first makes the reports that are due.
  induction h generalizing s with
  | @value v cost log w =>
    obtain ⟨s₀, hreports, hbare, hends⟩ := ends_of_reports c s w
    rw [ht] at hbare
    obtain ⟨v', hv'⟩ := eq_of_isFinal (isFinal_of_bare hreports (by rw [hbare]; rfl))
    rw [hv'] at hbare hends
    cases hbare
    exact ⟨_, hends _ (.value _ _ _ _)⟩
  | @step t t' w w' r hs hstep _ ih =>
    obtain ⟨s₀, hreports, hbare, hends⟩ := ends_of_reports c s w
    rw [ht] at hbare
    have hfinal : s₀.isFinal = false := not_isFinal_of_bare (by rw [hbare]; exact hs)
    cases hone : step c s₀ w with
    | ok s₁ w₁ =>
      have hquiet := step_of_steps ((steps_of_step hfinal hone).bare_of_not_reports hreports)
      rw [hbare, hstep] at hquiet
      cases hquiet
      obtain ⟨log, hlog⟩ := ih rfl
      exact ⟨log, hends _ (.step hfinal hone hlog)⟩
    | error e w₁ =>
      have hquiet := step_of_fails (fails_of_step hone).bare
      rw [hbare, hstep] at hquiet
      cases hquiet
  | @fail t w w' e hs hstep =>
    obtain ⟨s₀, hreports, hbare, hends⟩ := ends_of_reports c s w
    rw [ht] at hbare
    have hfinal : s₀.isFinal = false := not_isFinal_of_bare (by rw [hbare]; exact hs)
    cases hone : step c s₀ w with
    | ok s₁ w₁ =>
      have hquiet := step_of_steps ((steps_of_step hfinal hone).bare_of_not_reports hreports)
      rw [hbare, hstep] at hquiet
      cases hquiet
    | error e w₁ =>
      have hquiet := step_of_fails (fails_of_step hone).bare
      rw [hbare, hstep] at hquiet
      cases hquiet
      exact ⟨_, hends _ (.fail hfinal hone)⟩

/-- A trace changes neither the outcome of a run nor what its operators do, nor whether it ends. -/
theorem exec_traced (c : Config σ) (s : State) (w : σ) :
    (c.exec s w).map (fun r => (r.1.outcome, r.2)) =
      ((c.quiet c.limit).exec s.bare w).map fun r => (r.1.outcome, r.2) := by
  cases h : c.exec s w with
  | some r =>
    rw [exec_of_ends (ends_of_exec h).bare]
    rfl
  | none =>
    cases hq : (c.quiet c.limit).exec s.bare w with
    | none => rfl
    | some r =>
      obtain ⟨log, hends⟩ := ends_of_bare (ends_of_exec hq) rfl
      rw [exec_of_ends hends] at h
      cases h

/-! ### Evaluations by themselves -/

/-- A step of an evaluation above other frames is a step of the evaluation by itself, whether or not the limit applies
to it. -/
theorem steps_of_under {limit : Option Int} (hlimit : limit = none ∨ limit = c.limit) {a : State} (ha : a.isFinal = false)
    {below : List Frame} {cost : Nat} (h : Steps c (a.under below cost) w s' w') :
    ∃ a', Steps { c with limit } a w a' w' ∧ s' = a'.under below cost := by
  have hwithin : ∀ k price, Within c.limit (cost + k + price) → Within limit (k + price) := by
    rintro k price hc most hmost
    rcases hlimit with rfl | rfl
    · cases hmost
    · have := hc most hmost
      omega
  obtain ⟨control, frames, k, log⟩ := a
  change Steps c ⟨control, frames ++ below, cost + k, log⟩ w s' w' at h
  cases control with
  | enter form env =>
    cases h with
    | record hwatch => exact ⟨_, Steps.record (c := { c with limit }) hwatch env frames k log w, rfl⟩
    | enter hwatch => exact ⟨_, Steps.enter (c := { c with limit }) hwatch env frames k log w, rfl⟩
  | eval form env =>
    cases h with
    | eval hform _ hcost =>
      refine ⟨_, .eval hform frames (hwithin _ _ hcost) log w, ?_⟩
      rw [State.under, List.append_assoc, Nat.add_assoc]
  | apply op args =>
    cases h with
    | call hcall _ hcost =>
      refine ⟨_, .call hcall frames (hwithin _ _ hcost) log w, ?_⟩
      rw [State.under, Nat.add_assoc]
    | operator hop happly _ hcost =>
      refine ⟨_, Steps.operator (c := { c with limit }) hop happly frames (hwithin _ _ hcost) log, ?_⟩
      rw [State.under, Nat.add_assoc]
  | value v =>
    cases frames with
    | nil => cases ha
    | cons frame frames =>
      cases h with
      | report => exact ⟨_, .report v _ frames k log w, rfl⟩
      | operands => exact ⟨_, .operands v _ _ _ frames k log w, rfl⟩
      | operand => exact ⟨_, .operand v _ _ _ _ _ frames k log w, rfl⟩

/-! ### What a trace records -/

/-- A form whose evaluation begins in an environment, and the operators' state at that moment. -/
structure Evaluation (σ : Type) where
  form : SExp
  env : SExp
  state : σ

/-- The evaluation that a step begins, if it begins one. -/
def State.begins (s : State) (w : σ) : List (Evaluation σ) :=
  match s.control with
  | .enter form env => [⟨form, env, w⟩]
  | _ => []

theorem begins_enter (form env : SExp) (frames : List Frame) (k : Nat) (log : Array Entry) :
    State.begins ⟨.enter form env, frames, k, log⟩ w = [⟨form, env, w⟩] := rfl

/-- A run comes from a state to another, and has begun some evaluations on the way, in their order. -/
inductive Reaches (c : Config σ) (s : State) (w : σ) : List (Evaluation σ) → State → σ → Prop where
  | refl : Reaches c s w [] s w
  | step {begun : List (Evaluation σ)} {t u : State} {v v' : σ} (h : Reaches c s w begun t v) (ht : t.isFinal = false)
      (hstep : step c t v = .ok u v') : Reaches c s w (begun ++ t.begins v) u v'

/-- The evaluations that are recorded. -/
def Config.recorded (c : Config σ) (begun : List (Evaluation σ)) : List (Evaluation σ) := begun.filter (c.watch ·.form)

theorem recorded_append (xs ys : List (Evaluation σ)) : c.recorded (xs ++ ys) = c.recorded xs ++ c.recorded ys :=
  List.filter_append ..

theorem recorded_of_watch {e : Evaluation σ} (h : c.watch e.form = true) : c.recorded [e] = [e] :=
  List.filter_cons_of_pos h

theorem recorded_of_not_watch {e : Evaluation σ} (h : c.watch e.form = false) : c.recorded [e] = [] :=
  List.filter_cons_of_neg (by simp [h])

/-- An entry is that of an evaluation, and its result, once there is one, is what the evaluation comes to by itself,
with the limit of the run or with none. -/
structure Entry.Records (c : Config σ) (entry : Entry) (e : Evaluation σ) : Prop where
  form : entry.form = e.form
  env : entry.env = e.env
  result : ∀ v, entry.result = some v → ∀ limit, limit = none ∨ limit = c.limit →
    ∃ cost w', (c.quiet limit).exec (.start e.form e.env) e.state = some (⟨.ok (cost, v), #[]⟩, w')

/-- What stands above a frame that reports is what an evaluation has come to by itself. -/
def Awaits (c : Config σ) (s : State) (w : σ) (above : List Frame) (e : Evaluation σ) : Prop :=
  ∃ cost k, s.cost = cost + k ∧ ∀ limit, limit = none ∨ limit = c.limit →
    (c.quiet limit).exec (.start e.form e.env) e.state = (c.quiet limit).exec ⟨s.control, waiting above, k, #[]⟩ w

/-- The frames that report after a step reported before it, but for the one that the step pushes. -/
theorem Steps.report_of_frames {above below : List Frame} {i : Nat} (h : Steps c s w s' w')
    (hframes : s'.frames = above ++ .report i :: below) :
    above = [] ∧ i = s.log.size ∧ w' = w ∧ (∃ form env, s.control = .enter form env ∧ c.watch form = true ∧
        s'.control = .eval form env) ∨
      ∃ above', s.frames = above' ++ .report i :: below := by
  cases h with
  | record hwatch env frames k log =>
    cases above with
    | nil => cases hframes; exact .inl ⟨rfl, rfl, rfl, _, env, rfl, hwatch, rfl⟩
    | cons frame above => cases hframes; exact .inr ⟨above, rfl⟩
  | enter => exact .inr ⟨above, hframes⟩
  | @eval form env price control frame hform frames k hcost log =>
    cases frame with
    | none => exact .inr ⟨above, hframes⟩
    | some f =>
      cases above with
      | nil =>
        have hwaiting := waiting_of_dispatch hform
        cases hframes
        cases hwaiting
      | cons frame above => cases hframes; exact .inr ⟨above, rfl⟩
  | call => exact .inr ⟨above, hframes⟩
  | operator => exact .inr ⟨above, hframes⟩
  | report v j frames k log => exact .inr ⟨.report j :: above, congrArg (Frame.report j :: ·) hframes⟩
  | operands v op env done frames k log =>
    exact .inr ⟨.operands op env [] done :: above, congrArg (Frame.operands op env [] done :: ·) hframes⟩
  | operand v op env x pending done frames k log =>
    cases above with
    | nil => cases hframes
    | cons frame above => cases hframes; exact .inr ⟨.operands op env (x :: pending) done :: above, rfl⟩

theorem isFinal_waiting {above below : List Frame} {i : Nat} (hs : s.frames = above ++ .report i :: below)
    (hreports : s.reports = false) (k : Nat) : State.isFinal ⟨s.control, waiting above, k, #[]⟩ = false := by
  obtain ⟨control, frames, cost, log⟩ := s
  cases hs
  cases control with
  | value v =>
    cases above with
    | nil => cases hreports
    | cons frame above =>
      cases frame with
      | report => cases hreports
      | operands => rfl
  | _ => rfl

/-- An evaluation that has not yet come to a value goes on by itself as it does above other frames. -/
theorem Awaits.step {above above' below : List Frame} {i : Nat} {e : Evaluation σ} (ha : Awaits c s w above e)
    (hs : s.frames = above ++ .report i :: below) (h : Steps c s w s' w') (hs' : s'.frames = above' ++ .report i :: below) :
    Awaits c s' w' above' e := by
  obtain ⟨cost, k, hcost, halone⟩ := ha
  have hbare : s.bare = State.under ⟨s.control, waiting above, k, #[]⟩ (waiting below) cost := by
    rw [State.bare, State.under, hs, waiting_append, hcost]
    rfl
  cases hreports : s.reports with
  | true =>
    -- Another entry is reported, from further up.
    obtain ⟨hcontrol, hcost', rfl, j, hpop⟩ := h.of_reports hreports
    have habove : above = .report j :: above' := by
      apply (List.append_left_inj (.report i :: below)).mp
      rw [← hs, hpop, hs']
      rfl
    rw [habove] at halone
    exact ⟨cost, k, hcost' ▸ hcost, hcontrol ▸ halone⟩
  | false =>
    have hquiet := h.bare_of_not_reports hreports
    rw [hbare] at hquiet
    have halone' : ∀ limit, limit = none ∨ limit = c.limit → ∃ k', s'.cost = cost + k' ∧
        Steps (c.quiet limit) ⟨s.control, waiting above, k, #[]⟩ w ⟨s'.control, waiting above', k', #[]⟩ w' := by
      intro limit hlimit
      obtain ⟨⟨control, frames, k', log⟩, hstep, hunder⟩ :=
        steps_of_under (c := c.quiet c.limit) hlimit (isFinal_waiting hs hreports k) hquiet
      simp only [State.bare, State.under, State.mk.injEq, hs', waiting_append] at hunder
      obtain ⟨rfl, hframes, hcost', rfl⟩ := hunder
      obtain rfl := (List.append_left_inj _).mp hframes
      exact ⟨k', hcost', hstep⟩
    obtain ⟨k', hcost', -⟩ := halone' none (.inl rfl)
    refine ⟨cost, k', hcost', fun limit hlimit => ?_⟩
    obtain ⟨k'', hcost'', hstep⟩ := halone' limit hlimit
    obtain rfl : k'' = k' := by omega
    rw [halone limit hlimit, exec_of_not_final (isFinal_of_steps hstep), step_of_steps hstep]

/-! ### The log -/

theorem forall₂_modify {α β : Type} {R : α → β → Prop} {xs : List α} {ys : List β} (h : List.Forall₂ R xs ys) {i : Nat}
    {f : α → α} (hf : ∀ x y, ys[i]? = some y → R x y → R (f x) y) : List.Forall₂ R (xs.modify i f) ys := by
  induction h generalizing i with
  | nil => cases i <;> exact .nil
  | @cons x y xs ys hxy hrest ih =>
    cases i with
    | zero => exact .cons (hf x y rfl hxy) hrest
    | succ i => exact .cons hxy (ih hf)

/-- At every moment the log holds the evaluations that were begun and are recorded, and the frames that report wait for
those that have not come to a value. -/
structure Traced (c : Config σ) (begun : List (Evaluation σ)) (s : State) (w : σ) : Prop where
  entries : List.Forall₂ (Entry.Records c) s.log.toList (c.recorded begun)
  pending : ∀ above i below, s.frames = above ++ .report i :: below →
    ∃ e, (c.recorded begun)[i]? = some e ∧ Awaits c s w above e

theorem traced_start (form env : SExp) (w : σ) : Traced c [] (.start form env) w where
  entries := .nil
  pending above i below h := by
    cases above <;> cases h

theorem Traced.step {begun : List (Evaluation σ)} (ht : Traced c begun s w) (h : Steps c s w s' w') :
    Traced c (begun ++ s.begins w) s' w' where
  entries := by
    have hentries := ht.entries
    cases h with
    | @record form hwatch env frames k log =>
      rw [begins_enter, recorded_append, recorded_of_watch hwatch, Array.toList_push]
      exact List.rel_append hentries (.cons ⟨rfl, rfl, nofun⟩ .nil)
    | @enter form hwatch env frames k log =>
      rw [begins_enter, recorded_append, recorded_of_not_watch hwatch, List.append_nil]
      exact hentries
    | report v i frames k log =>
      obtain ⟨e, he, cost, k, -, halone⟩ := ht.pending [] i frames rfl
      rw [State.begins, List.append_nil, Array.toList_modify]
      refine forall₂_modify hentries fun entry e' he' hrecords => ⟨hrecords.form, hrecords.env, ?_⟩
      rintro v' hv' limit hlimit
      obtain rfl : e = e' := Option.some.inj (he.symm.trans he')
      cases hv'
      exact ⟨k, w, (halone limit hlimit).trans (exec_final v k #[])⟩
    | _ => rw [State.begins, List.append_nil]; exact hentries
  pending above i below hframes := by
    rcases h.report_of_frames hframes with ⟨rfl, rfl, rfl, form, env, hcontrol, hwatch, hcontrol'⟩ | ⟨above', hs⟩
    · refine ⟨⟨form, env, w'⟩, ?_, s'.cost, 0, rfl, fun limit _ => ?_⟩
      · rw [State.begins, hcontrol, recorded_append, recorded_of_watch hwatch, ← Array.length_toList, ht.entries.length_eq,
          List.getElem?_concat_length]
      · rw [hcontrol', exec_of_not_final (by rfl)]
        rfl
    · obtain ⟨e, he, hawaits⟩ := ht.pending above' i below hs
      refine ⟨e, ?_, hawaits.step hs h hframes⟩
      rw [recorded_append, List.getElem?_append_left (List.getElem?_eq_some_iff.mp he).1, he]

theorem Reaches.traced {form env : SExp} {begun : List (Evaluation σ)} (h : Reaches c (.start form env) w begun s w') :
    Traced c begun s w' := by
  induction h with
  | refl => exact traced_start form env w
  | step _ ht hstep ih => exact ih.step (steps_of_step ht hstep)

/-- The run that is not traced begins the same evaluations. -/
theorem Reaches.bare {begun : List (Evaluation σ)} {t : State} {v : σ} (h : Reaches c s w begun t v) :
    Reaches (c.quiet c.limit) s.bare w begun t.bare v := by
  induction h with
  | refl => exact .refl
  | @step begun t u v v' _ ht hstep ih =>
    have hsteps := steps_of_step ht hstep
    rcases hsteps.bare with ⟨hreports, hbare, rfl⟩ | hquiet
    · have hbegins : t.begins v' = [] := by
        obtain ⟨control, frames, k, log⟩ := t
        cases control with
        | enter => cases hreports
        | _ => rfl
      rw [hbegins, List.append_nil, hbare]
      exact ih
    · exact Reaches.step (t := t.bare) ih (isFinal_of_steps hquiet) (step_of_steps hquiet)

/-- Nothing follows: there is a value, or the next step fails. -/
def Over (c : Config σ) (s : State) (w : σ) : Prop := s.isFinal = true ∨ ∃ e w', step c s w = .error e w'

theorem Over.bare (h : Over c s w) : Over (c.quiet c.limit) s.bare w := by
  rcases h with hfinal | ⟨e, w', hstep⟩
  · obtain ⟨v, hv⟩ := eq_of_isFinal hfinal
    rw [hv]
    exact .inl rfl
  · exact .inr ⟨e, w', step_of_fails (fails_of_step hstep).bare⟩

theorem reaches_of_ends {r : Run × σ} {begun : List (Evaluation σ)} {s₀ : State} {w₀ : σ} (h : Ends c s w r)
    (hr : Reaches c s₀ w₀ begun s w) : ∃ begun t v, Reaches c s₀ w₀ begun t v ∧ Over c t v ∧ t.log = r.1.log := by
  induction h generalizing begun with
  | value v cost log w => exact ⟨begun, _, w, hr, .inl rfl, rfl⟩
  | step hs hstep _ ih => exact ih (.step hr hs hstep)
  | fail hs hstep => exact ⟨begun, _, _, hr, .inr ⟨_, _, hstep⟩, rfl⟩

/-! ### Symbol tables -/

/-- Whether a table of symbols has a form recorded: the hash of its tree is a key, or there are no keys at all. -/
def records (table : Option (List (List Char × Text.Json))) (form : SExp) : Bool :=
  match table with
  | none => true
  | some symbols => symbols.isEmpty || (symbols.map (·.1)).contains (Bytes.toHex form.treeHash)

/-- The same machine with a trace of what a table names. -/
def Config.tracing (c : Config σ) (table : Option (List (List Char × Text.Json))) : Config σ :=
  { c with watch := records table }

theorem watched_eq_records {x : Command.Execution} {table : Option (List (List Char × Text.Json))}
    (h : (x.verbose || x.table || table.isSome) = true) :
    x.watched (table.map fun symbols => ⟨.object symbols⟩) = .ok (records table) := by
  cases table with
  | none =>
    rw [Option.isSome_none, Bool.or_false] at h
    simp only [Option.map_none, Command.Execution.watched, h]
    rfl
  | some symbols =>
    cases symbols with
    | nil => rfl
    | cons entry symbols =>
      have hkeys : ∀ key, (entry :: symbols).any (·.1 == key) = ((entry :: symbols).map (·.1)).contains key := by
        intro key
        rw [Bool.eq_iff_iff]
        simp only [List.any_eq_true, List.contains_iff_mem, List.mem_map, beq_iff_eq]
      exact congrArg Except.ok (funext fun form => hkeys _)

/-- A run with a trace comes to what it comes to without one, and leaves the operators' state the same. Its log is at
every moment, and so when it ends, one entry for each evaluation begun so far whose form the table names, in their
order, and each value in it is that of its form in its environment by itself. -/
theorem trace_transparent_and_truthful (c : Config σ) (table : Option (List (List Char × Text.Json))) (form env : SExp)
    (w : σ) :
    ((c.tracing table).exec (.start form env) w).map (fun r => (r.1.outcome, r.2)) =
        ((c.quiet c.limit).exec (.start form env) w).map (fun r => (r.1.outcome, r.2)) ∧
      (∀ begun s w', Reaches (c.tracing table) (.start form env) w begun s w' →
        Reaches (c.quiet c.limit) (.start form env) w begun s.bare w' ∧
          List.Forall₂ (Entry.Records c) s.log.toList (begun.filter fun e => records table e.form)) ∧
      (∀ r, (c.tracing table).exec (.start form env) w = some r → ∃ begun s w',
        Reaches (c.quiet c.limit) (.start form env) w begun s w' ∧ Over (c.quiet c.limit) s w' ∧
          List.Forall₂ (Entry.Records c) r.1.log.toList (begun.filter fun e => records table e.form)) ∧
      ∀ x : Command.Execution, (x.verbose || x.table || table.isSome) = true →
        x.watched (table.map fun symbols => ⟨.object symbols⟩) = .ok (records table) := by
  have hmoment : ∀ begun s w', Reaches (c.tracing table) (.start form env) w begun s w' →
      Reaches (c.quiet c.limit) (.start form env) w begun s.bare w' ∧
        List.Forall₂ (Entry.Records c) s.log.toList (begun.filter fun e => records table e.form) := by
    intro begun s w' h
    refine ⟨h.bare, h.traced.entries.imp fun entry e hrecords => ?_⟩
    exact ⟨hrecords.form, hrecords.env, hrecords.result⟩
  refine ⟨exec_traced (c.tracing table) _ w, hmoment, ?_, fun x hx => watched_eq_records hx⟩
  intro r hr
  obtain ⟨begun, s, w', hreaches, hover, hlog⟩ := reaches_of_ends (ends_of_exec hr) .refl
  obtain ⟨hplain, hentries⟩ := hmoment begun s w' hreaches
  exact ⟨begun, s.bare, w', hplain, hover.bare, hlog ▸ hentries⟩

/-- `(c 1 (q . 5))` costs 115. With a limit of 100 the values of its operands are recorded, and its own is not. -/
theorem trace_transparent_and_truthful_exceeded :
    ∃ (c : Config Unit) (form quoted : SExp) (r : Run × Unit),
      c = ⟨Operators.base, some 100, fun _ => false⟩ ∧ quoted = .pair (.atom [1]) (.atom [5]) ∧
      form = .pair (.atom [4]) (.pair (.atom [1]) (.pair quoted .nil)) ∧
      (c.tracing (some [])).exec (.start form (.atom [7])) () = some r ∧
      r.1.log = #[⟨form, .atom [7], none⟩, ⟨quoted, .atom [7], some (.atom [5])⟩,
        ⟨.atom [1], .atom [7], some (.atom [7])⟩] ∧
      ∃ begun s w', Reaches (c.quiet c.limit) (.start form (.atom [7])) () begun s w' ∧ Over (c.quiet c.limit) s w' ∧
        List.Forall₂ (Entry.Records c) r.1.log.toList (begun.filter fun e => records (some []) e.form) := by
  have hr : Config.exec ⟨Operators.base, some 100, fun _ => true⟩ (.start (.pair (.atom [4]) (.pair (.atom [1])
      (.pair (.pair (.atom [1]) (.atom [5])) .nil))) (.atom [7])) () = some (run _ 16 _ ()) := exec_of_run nofun
  exact ⟨_, _, _, _, rfl, rfl, rfl, hr, rfl,
    (trace_transparent_and_truthful _ (some []) _ (.atom [7]) ()).2.2.1 _ hr⟩

end Clvm.Machine
