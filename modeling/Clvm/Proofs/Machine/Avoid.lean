import Clvm.Proofs.Machine.Strict
import Clvm.Proofs.Machine.Value

/-!
# Runs that avoid operators

What certain operators do is of no matter to a run that never applies them. Such a run is also the run with these
operators refused; and where a table gives a form its value, another table that gives all that the first one gives comes
to no other value, whatever it does where the first one fails.
-/

namespace Clvm

/-- The same operators, but for some that are refused. -/
def Operators.without {σ : Type} (ops : Operators σ) (words : List Bytes) : Operators σ where
  known op := if op ∈ words then some fun _ => throw (Machine.refusal op) else ops.known op
  unknown := ops.unknown

namespace Machine

/-! ### Refused operators -/

section Refusing
variable {σ : Type} {ops : Operators σ} {words : List Bytes} {op : Bytes} {s : State} {w : σ}

/-- A run from a state never comes to apply one of some operators. -/
def Avoids (c : Config σ) (words : List Bytes) (s : State) (w : σ) : Prop :=
  ∀ begun t v, Reaches c s w begun t v → ∀ op ∈ words, ∀ args, t.control ≠ .apply op args

theorem apply_without_of_mem (h : op ∈ words) (args : SExp) : (ops.without words).apply op args = throw (refusal op) := by
  simp only [Operators.apply, Operators.without, if_pos h]

theorem apply_without_of_not_mem (h : op ∉ words) (args : SExp) :
    (ops.without words).apply op args = ops.apply op args := by
  simp only [Operators.apply, Operators.without, if_neg h]

theorem step_without (h : ∀ op ∈ words, ∀ args, s.control ≠ .apply op args) (w : σ) :
    step (.plain (ops.without words)) s w = step (.plain ops) s w :=
  step_withOperators (c := .plain ops) (fun op args hcontrol _ =>
    apply_without_of_not_mem (fun hmem => h op hmem args hcontrol) args) w

/-- A run that avoids some operators is the same if they are refused. -/
theorem exec_without (h : Avoids (.plain ops) words s w) :
    (Config.plain (ops.without words)).exec s w = (Config.plain ops).exec s w :=
  (exec_eq_of_agree fun begun t v hreach => (step_without (h begun t v hreach) v).symm).symm

/-- Looks through the states that a run comes to. -/
def avoidsWithin (c : Config σ) (words : List Bytes) : Nat → State → σ → Bool
  | 0, _, _ => false
  | fuel + 1, s, w =>
    (match s.control with
      | .apply op _ => !words.contains op
      | _ => true) &&
    (s.isFinal || match step c s w with
      | .ok s' w' => avoidsWithin c words fuel s' w'
      | .error _ _ => true)

theorem reaches_head {c : Config σ} {begun : List (Evaluation σ)} {t : State} {v : σ} (h : Reaches c s w begun t v) :
    (t = s ∧ v = w) ∨
      s.isFinal = false ∧ ∃ s' w' later, step c s w = .ok s' w' ∧ Reaches c s' w' later t v := by
  induction h with
  | refl => exact .inl ⟨rfl, rfl⟩
  | step h ht hstep ih =>
    rcases ih with ⟨rfl, rfl⟩ | ⟨hs, s', w', later, hfirst, hlater⟩
    · exact .inr ⟨ht, _, _, [], hstep, .refl⟩
    · exact .inr ⟨hs, s', w', _, hfirst, hlater.step ht hstep⟩

theorem avoids_of_avoidsWithin {c : Config σ} {fuel : Nat} (h : avoidsWithin c words fuel s w = true) :
    Avoids c words s w := by
  induction fuel generalizing s w with
  | zero => cases h
  | succ fuel ih =>
    intro begun t v hreach op hop args hcontrol
    obtain ⟨hhere, hnext⟩ := (Bool.and_eq_true ..).mp h
    rcases reaches_head hreach with ⟨rfl, rfl⟩ | ⟨hs, s', w', later, hfirst, hlater⟩
    · rw [hcontrol] at hhere
      simp [hop] at hhere
    · rw [hs, hfirst] at hnext
      exact ih hnext later t v hlater op hop args hcontrol

end Refusing

/-! ### Tables that give more -/

section Giving
variable {σ : Type} {own : Operators Unit} {ops : Operators σ} {s s' : State}

/-- All that one table gives another gives as well, without acting on its state. -/
def Gives (ops : Operators σ) (own : Operators Unit) : Prop :=
  ∀ op args r u, own.apply op args () = .ok r u → ∀ w, ops.apply op args w = .ok r w

theorem Gives.steps (hops : Gives ops own) {u u' : Unit} (h : Steps (.plain own) s u s' u') (w : σ) :
    Steps (.plain ops) s w s' w := by
  cases h with
  | record hwatch => cases hwatch
  | enter hwatch env frames k log => exact Steps.enter (c := .plain ops) hwatch env frames k log w
  | eval hform frames hcost log => exact Steps.eval (c := .plain ops) hform frames hcost log w
  | call hcall frames hcost log => exact Steps.call (c := .plain ops) hcall frames hcost log w
  | operator hop happly frames hcost log =>
    exact Steps.operator (c := .plain ops) hop (hops _ _ _ _ happly w) frames hcost log
  | report v i frames k log => exact .report v i frames k log w
  | operands v op env done frames k log => exact .operands v op env done frames k log w
  | operand v op env x pending done frames k log => exact .operand v op env x pending done frames k log w

theorem Gives.ends (hops : Gives ops own) {u : Unit} {r : Run × Unit} {a : Charged} (h : Ends (.plain own) s u r)
    (hr : r.1.outcome = .ok a) (w : σ) : Ends (.plain ops) s w (r.1, w) := by
  induction h with
  | value v cost log u => exact .value v cost log w
  | step hs hstep _ ih => exact .step hs (step_of_steps (hops.steps (steps_of_step hs hstep) w)) (ih hr)
  | fail hs hstep => cases hr

/-- A bounded run comes to no other value than a table has of which it gives everything. -/
theorem Gives.evaluate_unique (hops : Gives ops own) {form env : SExp} {a b : Charged} {log : Array Entry} {u : Unit}
    (h : (Config.plain own).exec (.start form env) () = some (⟨.ok a, log⟩, u)) {fuel : Nat} {w w' : σ}
    (hrun : evaluate (.plain ops) fuel form env w = .ok b w') : b = a := by
  have hexec : (Config.plain ops).exec (.start form env) w = some (⟨.ok a, log⟩, w) :=
    exec_of_ends (hops.ends (ends_of_exec h) rfl w)
  rw [evaluate] at hrun
  split at hrun
  · rename_i r log' w₁ hr
    have hbound : (run (.plain ops) fuel (.start form env) w).1.outcome ≠ .error .outOfFuel := by
      simp [hr]
    have hexec' := exec_of_run hbound
    rw [hr, hexec] at hexec'
    cases hexec'
    cases hrun
    rfl
  · cases hrun

end Giving

end Machine
end Clvm
