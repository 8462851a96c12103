import Clvm.Error.Message
import Clvm.Proofs.Machine.Trace
import Clvm.Toolchain

/-!
# Strict runs

A strict machine refuses the operators that its table lacks. It differs from the lenient one in nothing else, so the two
take the same steps until they come to such an operator: there the strict run is over, and a run that never comes to one
is the same for both. Known operators act alike in both machines, whatever they run inside.
-/

namespace Clvm.Machine

variable {σ : Type} {c : Config σ} {s s₀ : State} {w w₀ : σ} {op : Bytes}

/-- The same machine, without any reading of unknown operators. -/
def Config.strict (c : Config σ) : Config σ := { c with operators := c.operators.strict }

/-- The operator that is about to be applied, if the table lacks it. The machine treats application itself. -/
def State.unknown? (ops : Operators σ) (s : State) : Option Bytes :=
  match s.control with
  | .apply op _ => if op ≠ Keyword.apply ∧ (ops.known op).isNone then some op else none
  | _ => none

/-- The failure that names a refused operator. -/
def refusal (op : Bytes) : Error := .eval .unimplementedOperator (.atom op)

/-! ### Steps -/

theorem unknown?_eq_some {ops : Operators σ} (h : s.unknown? ops = some op) :
    (∃ args, s.control = .apply op args) ∧ op ≠ Keyword.apply ∧ ops.known op = none := by
  obtain ⟨control, frames, k, log⟩ := s
  cases control with
  | apply op' args =>
    simp only [State.unknown?, Option.isNone_iff_eq_none, Option.ite_none_right_eq_some, Option.some.injEq] at h
    obtain ⟨⟨hop, hknown⟩, rfl⟩ := h
    exact ⟨⟨args, rfl⟩, hop, hknown⟩
  | _ => cases h

theorem isFinal_of_unknown {ops : Operators σ} (h : s.unknown? ops = some op) : s.isFinal = false := by
  obtain ⟨⟨args, hcontrol⟩, -⟩ := unknown?_eq_some h
  rw [State.isFinal, hcontrol]

theorem apply_strict_of_known {ops : Operators σ} (h : ops.known op ≠ none) (args : SExp) :
    ops.strict.apply op args = ops.apply op args := by
  obtain ⟨f, hf⟩ := Option.ne_none_iff_exists'.mp h
  simp only [Operators.apply, Operators.strict, hf]

theorem apply_strict_of_unknown {ops : Operators σ} (h : ops.known op = none) (args : SExp) :
    ops.strict.apply op args = throw (refusal op) := by
  simp only [Operators.apply, Operators.strict, h]
  rfl

/-- The two machines take the same step, unless an unknown operator is applied. -/
theorem step_strict (h : s.unknown? c.operators = none) (w : σ) : step c.strict s w = step c s w := by
  refine step_withOperators (fun op args hcontrol hop => apply_strict_of_known (fun hnone => ?_) args) w
  simp [State.unknown?, hcontrol, hop, hnone] at h

/-- The strict machine stops at an unknown operator. -/
theorem step_strict_unknown (h : s.unknown? c.operators = some op) (w : σ) :
    step c.strict s w = .error (refusal op) w := by
  obtain ⟨⟨args, hcontrol⟩, hop, hnone⟩ := unknown?_eq_some h
  obtain ⟨control, frames, k, log⟩ := s
  cases hcontrol
  rw [step_operator_charge hop, Config.strict, apply_strict_of_unknown hnone]
  rfl

/-! ### Runs -/

/-- The lenient machine can go wherever the strict one goes. -/
theorem Reaches.lenient {begun : List (Evaluation σ)} {t : State} {v : σ} (h : Reaches c.strict s w begun t v) :
    Reaches c s w begun t v := by
  induction h with
  | refl => exact .refl
  | @step begun t u v v' _ ht hstep ih =>
    cases hop : t.unknown? c.operators with
    | none => exact ih.step ht ((step_strict hop v).symm.trans hstep)
    | some op =>
      rw [step_strict_unknown hop] at hstep
      cases hstep

/-- A run of the lenient machine comes to an operator that the table lacks, where the strict machine, which has come the
same way, refuses it. -/
structure Refused (c : Config σ) (s : State) (w : σ) (op : Bytes) (r : Run × σ) : Prop where
  outcome : r.1.outcome = .error (refusal op)
  reached : ∃ begun t, Reaches c s w begun t r.2 ∧ Reaches c.strict s w begun t r.2 ∧
    t.unknown? c.operators = some op ∧ t.log = r.1.log

theorem Refused.known_eq_none {r : Run × σ} (h : Refused c s w op r) : c.operators.known op = none := by
  obtain ⟨begun, t, -, -, hop, -⟩ := h.reached
  exact (unknown?_eq_some hop).2.2

theorem run_strict_of_reaches (fuel : Nat) {begun : List (Evaluation σ)} (hreach : Reaches c.strict s₀ w₀ begun s w) :
    run c.strict fuel s w = run c fuel s w ∨ ∃ op, Refused c s₀ w₀ op (run c.strict fuel s w) := by
  induction fuel generalizing begun s w with
  | zero => exact .inl rfl
  | succ fuel ih =>
    cases hfinal : s.isFinal with
    | true =>
      obtain ⟨v, hv⟩ := eq_of_isFinal hfinal
      rw [hv]
      exact .inl rfl
    | false =>
      rw [run_succ_of_not_final hfinal, run_succ_of_not_final hfinal]
      cases hop : s.unknown? c.operators with
      | some op =>
        rw [step_strict_unknown hop]
        exact .inr ⟨op, rfl, begun, s, hreach.lenient, hreach, hop, rfl⟩
      | none =>
        rw [step_strict hop]
        cases hstep : step c s w with
        | error e w' => exact .inl rfl
        | ok s' w' => exact ih (hreach.step hfinal ((step_strict hop w).trans hstep))

/-- However long it is let run, a strict run is the lenient one, or refuses an operator on its way. -/
theorem run_strict (c : Config σ) (fuel : Nat) (s : State) (w : σ) :
    run c.strict fuel s w = run c fuel s w ∨ ∃ op, Refused c s w op (run c.strict fuel s w) :=
  run_strict_of_reaches fuel .refl

/-! ### Runs without a bound -/

theorem exec_of_reaches {begun : List (Evaluation σ)} {t : State} {v : σ} (h : Reaches c s w begun t v) :
    c.exec s w = c.exec t v := by
  induction h with
  | refl => rfl
  | step _ ht hstep ih => rw [ih, exec_of_not_final ht, hstep]

/-- Where the strict machine never comes to an unknown operator, it goes wherever the lenient one goes. -/
theorem Reaches.strict (hknown : ∀ begun t v, Reaches c.strict s w begun t v → t.unknown? c.operators = none)
    {begun : List (Evaluation σ)} {t : State} {v : σ} (h : Reaches c s w begun t v) : Reaches c.strict s w begun t v := by
  induction h with
  | refl => exact .refl
  | @step begun t u v v' _ ht hstep ih => exact ih.step ht ((step_strict (hknown _ t v ih) v).trans hstep)

section Agreeing
variable {c' : Config σ} {Along : State → σ → Prop} {r : Run × σ}

/-- Two machines that take the same steps along a way end it alike. -/
theorem ends_of_agree (hagree : ∀ t v, Along t v → step c t v = step c' t v)
    (hnext : ∀ {t u : State} {v v' : σ}, Along t v → t.isFinal = false → step c t v = .ok u v' → Along u v')
    (hs : Along s w) (h : Ends c s w r) : Ends c' s w r := by
  induction h with
  | value v cost log w => exact .value v cost log w
  | step hfinal hstep _ ih => exact .step hfinal ((hagree _ _ hs).symm.trans hstep) (ih (hnext hs hfinal hstep))
  | fail hfinal hstep => exact .fail hfinal ((hagree _ _ hs).symm.trans hstep)

theorem exec_eq_of_agree (hagree : ∀ begun t v, Reaches c s w begun t v → step c t v = step c' t v) :
    c.exec s w = c'.exec s w := by
  have halong : ∀ t v, (∃ begun, Reaches c s w begun t v) → step c t v = step c' t v :=
    fun t v ⟨begun, hreach⟩ => hagree begun t v hreach
  cases h : c.exec s w with
  | some r =>
    refine (exec_of_ends (ends_of_agree halong ?_ ⟨[], .refl⟩ (ends_of_exec h))).symm
    exact fun ⟨_, hreach⟩ hfinal hstep => ⟨_, hreach.step hfinal hstep⟩
  | none =>
    cases h' : c'.exec s w with
    | none => rfl
    | some r =>
      -- The other machine would come to its end along the same way.
      have hends : Ends c s w r := by
        refine ends_of_agree (fun t v ht => (halong t v ht).symm) ?_ ⟨[], .refl⟩ (ends_of_exec h')
        exact fun ⟨begun, hreach⟩ hfinal hstep =>
          ⟨_, hreach.step hfinal ((hagree begun _ _ hreach).trans hstep)⟩
      rw [exec_of_ends hends] at h
      cases h

end Agreeing

/-- A strict run is the lenient one just when that one never comes to an unknown operator. Otherwise it refuses the first
of them. -/
theorem exec_strict (c : Config σ) (s : State) (w : σ) :
    (c.strict.exec s w = c.exec s w ∧ ∀ begun t v, Reaches c s w begun t v → t.unknown? c.operators = none) ∨
      ∃ op r, c.strict.exec s w = some r ∧ Refused c s w op r := by
  by_cases hunknown : ∃ begun t v op, Reaches c.strict s w begun t v ∧ t.unknown? c.operators = some op
  · obtain ⟨begun, t, v, op, hreach, hop⟩ := hunknown
    refine .inr ⟨op, (⟨.error (refusal op), t.log⟩, v), ?_, rfl, begun, t, hreach.lenient, hreach, hop, rfl⟩
    rw [exec_of_reaches hreach, exec_of_not_final (isFinal_of_unknown hop), step_strict_unknown hop]
  · have hknown : ∀ begun t v, Reaches c.strict s w begun t v → t.unknown? c.operators = none := by
      intro begun t v hreach
      cases hop : t.unknown? c.operators with
      | none => rfl
      | some op => exact absurd ⟨begun, t, v, op, hreach, hop⟩ hunknown
    refine .inl ⟨exec_eq_of_agree fun begun t v hreach => step_strict (hknown begun t v hreach) v, ?_⟩
    exact fun begun t v hreach => hknown begun t v (hreach.strict hknown)

end Clvm.Machine

namespace Clvm.Dialect
open Machine

variable [Curve]

/-- The lenient machine of a dialect. -/
def config (d : Dialect) (search : List String) (limit : Int) (watch : SExp → Bool) : Config Session :=
  { Config.limited (d.operators search false) limit with watch }

theorem run_false (d : Dialect) (search : List String) (limit : Int) (watch : SExp → Bool) (form env : SExp)
    (s : Session) :
    d.run search limit false watch form env s = Machine.run (d.config search limit watch) ample (.start form env) s := rfl

theorem run_true (d : Dialect) (search : List String) (limit : Int) (watch : SExp → Bool) (form env : SExp) (s : Session) :
    d.run search limit true watch form env s =
      Machine.run (d.config search limit watch).strict ample (.start form env) s := rfl

theorem evaluate_eq_ok_iff {d : Dialect} {search : List String} {limit : Int} {strict : Bool} {form env : SExp}
    {r : Charged} {s s' : Session} :
    d.evaluate search limit strict form env s = .ok r s' ↔
      (d.run search limit strict (fun _ => false) form env s).1.outcome = .ok r ∧
        (d.run search limit strict (fun _ => false) form env s).2 = s' := by
  rw [evaluate]
  obtain ⟨⟨outcome, log⟩, s₁⟩ := d.run search limit strict (fun _ => false) form env s
  cases outcome <;> simp

/-- With the operators of the machine and with those of the compiler as well, a strict run comes to exactly what the
lenient run comes to, or refuses an operator that the table lacks, to which the lenient run comes too; it does refuse
one whenever the lenient run comes to one. So the cost and value of a strict run are those of the lenient one. -/
theorem strict_agrees_or_refuses (d : Dialect) (search : List String) (limit : Int) (watch : SExp → Bool)
    (form env : SExp) (s : Session) :
    (d.run search limit true watch form env s = d.run search limit false watch form env s ∨
      ∃ op, (d.operators search false).known op = none ∧ (refusal op).message? = some "unimplemented operator" ∧
        (d.run search limit true watch form env s).1.outcome = .error (refusal op)) ∧
    ((d.config search limit watch).strict.exec (.start form env) s = (d.config search limit watch).exec (.start form env) s ∧
        (∀ begun t s', Reaches (d.config search limit watch) (.start form env) s begun t s' →
          t.unknown? (d.operators search false) = none) ∨
      ∃ op r, (d.config search limit watch).strict.exec (.start form env) s = some r ∧
        Refused (d.config search limit watch) (.start form env) s op r) ∧
    ∀ cost v s', d.evaluate search limit true form env s = .ok (cost, v) s' →
      d.evaluate search limit false form env s = .ok (cost, v) s' := by
  have hrun : ∀ watch, d.run search limit true watch form env s = d.run search limit false watch form env s ∨
      ∃ op, (d.operators search false).known op = none ∧ (refusal op).message? = some "unimplemented operator" ∧
        (d.run search limit true watch form env s).1.outcome = .error (refusal op) := by
    intro watch
    rw [run_true, run_false]
    rcases run_strict (d.config search limit watch) ample (.start form env) s with h | ⟨op, h⟩
    · exact .inl h
    · exact .inr ⟨op, h.known_eq_none, rfl, h.outcome⟩
  refine ⟨hrun watch, exec_strict _ _ _, ?_⟩
  intro cost v s' hok
  rw [evaluate_eq_ok_iff] at hok ⊢
  rcases hrun fun _ => false with h | ⟨op, -, -, h⟩
  · rw [← h]
    exact hok
  · rw [h] at hok
    cases hok.1

-- `(0x01ff (q . 2))` gives nil to a lenient run and is refused by a strict one, which optimises it all the same: what
-- `opt` runs is lenient.
example :
    let form := SExp.pair (.atom [1, 255]) (.pair (Form.quote (.atom [2])) .nil)
    let optimized := SExp.ofList [.atom Word.opt, Form.quote form]
    Dialect.compiler.evaluate [] 0 false form .nil (.start .empty) = .ok (581, .nil) (.start .empty) ∧
      Dialect.compiler.evaluate [] 0 true form .nil (.start .empty) = .error (refusal [1, 255]) (.start .empty) ∧
      Action.isOk (Dialect.compiler.evaluate [] 0 true optimized .nil) (.start .empty) = true :=
  ⟨rfl, rfl, rfl⟩

end Clvm.Dialect
