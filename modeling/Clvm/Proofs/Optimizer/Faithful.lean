import Clvm.Optimizer.Basic
import Clvm.Proofs.Action
import Clvm.Proofs.Optimizer.Substitution

/-!
# Faithful reductions

The optimiser records every reduction that it makes. A reduction is faithful when the pass that made it can be relied
on. For most programs that can be read off the program before the reduction; the value of a constant program has to be
the machine's, and a place that is moved may also happen to hold the whole environment. An optimised program has the
values of the program it was made from if all the reductions that were recorded are faithful.
-/

namespace Clvm

variable [Curve]

/-- Whether a pass can be relied on to have kept the value of a program. -/
def Reduction.Faithful (r : Reduction) : Prop :=
  match r.pass with
  | .evaluateConstant => ∀ v, Machine.valueOf r.before .nil = .ok v → r.after = Form.quote v
  | .changeVariables =>
    ∀ body env, Optimizer.quotedCall? r.before = some (body, env) →
      Optimizer.Movable env body ∧
      ∀ moved, Optimizer.substitute env body = .ok moved →
        Optimizer.seemsConstant moved = .ok true ∨ Optimizer.isLoneCall moved = false
  | .optimizeChildren => Optimizer.isLoneCall r.before = false
  | .mergePath => ∀ op b, r.before = .ofList [.atom op, .atom b] → Path.KeepsWidth b
  | .takeApart | .unwrapApply | .dropQuotedNil | .dropAppliedNil => True

/-- A change that a pass of the optimiser does make. -/
def Reduction.Made (r : Reduction) : Prop :=
  r.after ≠ r.before ∧ ∃ run fuel s s',
    Optimizer.applyPass run (Optimizer.optimize run fuel) r.before r.pass s = .ok r.after s'

/-- The reductions that were recorded from one session to a later one. -/
def Session.recordedSince (s s' : Session) : List Reduction := s'.reductions.toList.drop s.reductions.size

/-! ### What actions establish -/

/-- An action that succeeds only adds reductions to the record that passes do make, and its result is as told if all
that it adds is faithful. -/
def Establishes {α : Type} (x : Action Session α) (Q : α → Prop) : Prop :=
  ∀ s a s', x s = .ok a s' →
    ∃ new, s'.reductions.toList = s.reductions.toList ++ new ∧ (∀ r ∈ new, r.Made) ∧ ((∀ r ∈ new, r.Faithful) → Q a)

section Establishes
variable {α β : Type} {x : Action Session α} {f : α → Action Session β} {P : α → Prop} {Q : β → Prop}

theorem establishes_pure {a : α} (h : P a) : Establishes (pure a) P := by
  intro s a' s' hs
  obtain ⟨rfl, rfl⟩ := Action.pure_eq_ok.mp hs
  exact ⟨[], by simp, nofun, fun _ => h⟩

theorem establishes_lift {r : Except Error α} (h : ∀ a, r = .ok a → P a) : Establishes (liftM r) P := by
  intro s a s' hs
  obtain ⟨ha, rfl⟩ := Action.lift_eq_ok.mp hs
  exact ⟨[], by simp, nofun, fun _ => h a ha⟩

theorem establishes_throw (e : Error) : Establishes (throw e) P := fun _ _ _ hs => by cases hs

theorem establishes_record {r : Reduction} (h : r.Made) : Establishes (Session.record r) fun _ => r.Faithful := by
  intro s a s' hs
  cases hs
  refine ⟨[r], by simp, fun r' hr' => ?_, fun h => h r (List.mem_singleton.mpr rfl)⟩
  rwa [List.mem_singleton.mp hr']

/-- What follows an action may rely on its result being one of the action's. -/
theorem Establishes.bind_result (hx : Establishes x P)
    (hf : ∀ a, (∃ s s', x s = .ok a s') → Establishes (f a) fun b => P a → Q b) : Establishes (x >>= f) Q := by
  intro s b s' hs
  obtain ⟨a, s₁, ha, hb⟩ := Action.bind_eq_ok.mp hs
  obtain ⟨new, hnew, hmade, hP⟩ := hx s a s₁ ha
  obtain ⟨more, hmore, hmade', hQ⟩ := hf a ⟨s, s₁, ha⟩ s₁ b s' hb
  refine ⟨new ++ more, by rw [hmore, hnew, List.append_assoc], fun r hr => ?_, fun h => ?_⟩
  · exact (List.mem_append.mp hr).elim (hmade r) (hmade' r)
  · exact hQ (fun r hr => h r (List.mem_append_right _ hr)) (hP fun r hr => h r (List.mem_append_left _ hr))

theorem Establishes.bind (hx : Establishes x P) (hf : ∀ a, Establishes (f a) fun b => P a → Q b) :
    Establishes (x >>= f) Q :=
  hx.bind_result fun a _ => hf a

theorem Establishes.mono {P' : α → Prop} (hx : Establishes x P) (h : ∀ a, P a → P' a) : Establishes x P' := by
  intro s a s' hs
  obtain ⟨new, hnew, hmade, hP⟩ := hx s a s' hs
  exact ⟨new, hnew, hmade, fun hr => h a (hP hr)⟩

theorem establishes_mapM {R : α → β → Prop} {xs : List α} (h : ∀ x, Establishes (f x) (R x)) :
    Establishes (xs.mapM f) (List.Forall₂ R xs) := by
  induction xs with
  | nil => exact establishes_pure .nil
  | cons x xs ih =>
    rw [List.mapM_cons]
    refine (h x).bind fun y => (ih.bind fun ys => ?_)
    exact establishes_pure fun hxs hx => .cons hx hxs

end Establishes

namespace Optimizer
open Machine

/-- A runner that only adds reductions to the record that passes do make. -/
def KeepsRecord (run : Runner) : Prop := ∀ form env, Establishes (run form env) fun _ => True

/-- Replacing a constant program by a value keeps values just when that is the value of the program. -/
theorem quote_preserves_iff {t v : SExp} (h : seemsConstant t = .ok true) :
    Preserves t (Form.quote v) ↔ Reduction.Faithful ⟨.evaluateConstant, t, Form.quote v⟩ := by
  refine ⟨fun hkeep w hw => ?_, fun hfaithful env w hw => ?_⟩
  · have hv := hkeep .nil w hw
    rw [valueOf_formQuote] at hv
    rw [Except.ok.inj hv]
  · have hafter : Form.quote v = Form.quote w := hfaithful w ((valueOf_of_seemsConstant h .nil env).trans hw)
    rw [hafter, valueOf_formQuote]

section Passes
variable {run : Runner} {opt : SExp → Action Session SExp}

omit [Curve] in
/-- A program that is not constant stays, and a constant one becomes a quotation of what the runner answers. -/
theorem evaluateConstant_eq_ok {t t' : SExp} {s s' : Session} (h : evaluateConstant run t s = .ok t' s') :
    (t' = t ∧ (seemsConstant t = .ok true → isNonNil t = false)) ∨
      (seemsConstant t = .ok true ∧ ∃ cost v, run t .nil s = .ok (cost, v) s' ∧ t' = Form.quote v) := by
  obtain ⟨constant, s₁, hlift, h⟩ := Action.bind_eq_ok.mp h
  obtain ⟨hconst, rfl⟩ := Action.lift_eq_ok.mp hlift
  split at h
  · rename_i htrue
    rw [Bool.and_eq_true] at htrue
    obtain ⟨⟨cost, v⟩, s₂, hrun, h⟩ := Action.bind_eq_ok.mp h
    obtain ⟨rfl, rfl⟩ := Action.pure_eq_ok.mp h
    exact .inr ⟨by rw [hconst, htrue.1], cost, v, hrun, rfl⟩
  · rename_i hnot
    refine .inl ⟨(Action.pure_eq_ok.mp h).1.symm, fun htrue => ?_⟩
    rw [htrue] at hconst
    cases hconst
    simpa using hnot

theorem evaluateConstant_establishes (hrun : KeepsRecord run) (t : SExp) :
    Establishes (evaluateConstant run t) fun t' =>
      Reduction.Faithful ⟨.evaluateConstant, t, t'⟩ → Preserves t t' := by
  refine (establishes_lift fun a (ha : seemsConstant t = .ok a) => ha).bind fun constant => ?_
  cases hc : constant && isNonNil t with
  | false => exact establishes_pure fun _ _ => .refl t
  | true =>
    rw [Bool.and_eq_true] at hc
    refine (hrun t .nil).bind fun ⟨_, v⟩ => establishes_pure fun _ hconst => ?_
    rw [hc.1] at hconst
    exact (quote_preserves_iff hconst).mpr

theorem changeVariables_establishes (hopt : ∀ t, Establishes (opt t) (Optimized t)) (t : SExp) :
    Establishes (changeVariables opt t) fun t' =>
      Reduction.Faithful ⟨.changeVariables, t, t'⟩ → Preserves t t' := by
  rw [changeVariables]
  split
  · exact establishes_pure fun _ => .refl t
  · rename_i body env hcall
    refine (establishes_lift fun m (hm : substitute env body = .ok m) => hm).bind fun moved => ?_
    refine (establishes_lift fun c (hc : seemsConstant moved = .ok c) => hc).bind fun constant => ?_
    have hmove : substitute env body = .ok moved → Reduction.Faithful ⟨.changeVariables, t, t⟩ → Preserves t moved := by
      intro hmoved hfaithful
      rw [quotedCall?_eq_some hcall]
      exact substitute_preserves (hfaithful body env hcall).1 hmoved
    cases constant with
    | true =>
      refine (hopt moved).mono fun t' ht' _ hmoved hfaithful => ?_
      exact (hmove hmoved hfaithful).trans ht'.1
    | false =>
      refine (establishes_lift fun xs (hxs : moved.toList = .ok xs) => hxs).bind fun xs => ?_
      refine (establishes_mapM hopt).bind fun parts => establishes_pure fun hparts hxs hconst hmoved hfaithful => ?_
      split
      · exact .refl t
      · refine (hmove hmoved hfaithful).trans ?_
        have hlone := ((hfaithful body env hcall).2 moved hmoved).resolve_left (by rw [hconst]; nofun)
        obtain ⟨_, hproper, hitems⟩ := bind_eq_ok.mp hxs
        cases hitems
        refine ofList_preserves hlone ?_ ?_ hproper hparts
        · rintro x rfl
          cases hconst
        · cases moved with
          | pair x y => rfl
          | atom b => cases b <;> cases hconst; cases hproper

theorem optimizeChildren_establishes (hopt : ∀ t, Establishes (opt t) (Optimized t)) (t : SExp) :
    Establishes (optimizeChildren opt t) fun t' =>
      Reduction.Faithful ⟨.optimizeChildren, t, t'⟩ → Preserves t t' := by
  cases t with
  | atom b => exact establishes_pure fun _ => .refl _
  | pair op operands =>
    rw [optimizeChildren]
    split
    · exact establishes_pure fun _ => .refl _
    · rename_i hquote
      refine (establishes_mapM hopt).bind fun parts => ?_
      refine (establishes_lift fun u (hu : (SExp.pair op operands).checkProper = .ok u) => hu).bind fun _ => ?_
      refine establishes_pure fun hproper hparts hlone => ofList_preserves hlone ?_ rfl hproper hparts
      rintro x ⟨⟩
      exact hquote rfl

theorem applyPass_establishes (hrun : KeepsRecord run) (hopt : ∀ t, Establishes (opt t) (Optimized t)) (t : SExp)
    (pass : Pass) :
    Establishes (applyPass run opt t pass) fun t' => Reduction.Faithful ⟨pass, t, t'⟩ → Preserves t t' := by
  cases pass with
  | takeApart => exact establishes_pure fun _ => takeApart_preserves t
  | evaluateConstant => exact evaluateConstant_establishes hrun t
  | unwrapApply => exact establishes_pure fun _ => unwrapApply_preserves t
  | changeVariables => exact changeVariables_establishes hopt t
  | optimizeChildren => exact optimizeChildren_establishes hopt t
  | mergePath => exact establishes_lift fun t' ht' hfaithful => mergePath_preserves hfaithful ht'
  | dropQuotedNil => exact establishes_pure fun _ => dropQuotedNil_preserves t
  | dropAppliedNil => exact establishes_pure fun _ => dropAppliedNil_preserves t

theorem firstChange_establishes {apply : Pass → Action Session SExp} {t : SExp}
    (h : ∀ pass, Establishes (apply pass) fun t' => Reduction.Faithful ⟨pass, t, t'⟩ → Preserves t t')
    (passes : List Pass) :
    Establishes (firstChange apply t passes) fun change =>
      ∀ pass after, change = some (pass, after) → Reduction.Faithful ⟨pass, t, after⟩ → Preserves t after := by
  induction passes with
  | nil => exact establishes_pure nofun
  | cons pass passes ih =>
    refine (h pass).bind fun t' => ?_
    split
    · exact ih.mono fun _ hchange _ => hchange
    · refine establishes_pure fun ht' pass' after hchange => ?_
      cases hchange
      exact ht'

omit [Curve] in
theorem firstChange_eq_some {apply : Pass → Action Session SExp} {t t' : SExp} {pass : Pass} {passes : List Pass}
    {s s' : Session} (h : firstChange apply t passes s = .ok (some (pass, t')) s') :
    t' ≠ t ∧ ∃ s₁, apply pass s₁ = .ok t' s' := by
  induction passes generalizing s with
  | nil => cases h
  | cons p passes ih =>
    obtain ⟨t₁, s₁, hp, h⟩ := Action.bind_eq_ok.mp h
    split at h
    · exact ih h
    · rename_i hne
      cases h
      exact ⟨hne, s, hp⟩

/-- Optimising keeps the values of a program if every reduction that it records is faithful. -/
theorem optimize_establishes (hrun : KeepsRecord run) (fuel : Nat) (t : SExp) :
    Establishes (optimize run fuel t) (Optimized t) := by
  induction fuel generalizing t with
  | zero => exact establishes_throw _
  | succ fuel ih =>
    cases t with
    | atom b => exact establishes_pure ⟨.refl _, fun _ _ => rfl⟩
    | pair x y =>
      rw [optimize]
      refine (firstChange_establishes (applyPass_establishes hrun ih _) Pass.all).bind_result fun change hresult => ?_
      match change with
      | none => exact establishes_pure fun _ => ⟨.refl _, nofun⟩
      | some (pass, after) =>
        obtain ⟨s, s', hround⟩ := hresult
        obtain ⟨hne, s₁, hpass⟩ := firstChange_eq_some hround
        have hmade : Reduction.Made ⟨pass, .pair x y, after⟩ := ⟨hne, run, fuel, s₁, s', hpass⟩
        refine (establishes_record hmade).bind fun _ => (ih after).mono fun t' ht' hfaithful hchange => ⟨?_, nofun⟩
        exact (hchange pass after rfl hfaithful).trans ht'.1

omit [Curve] in
/-- What is recorded between two sessions of which the second is the first with more reductions. -/
theorem recordedSince_eq {s s' : Session} {new : List Reduction}
    (h : s'.reductions.toList = s.reductions.toList ++ new) : s.recordedSince s' = new := by
  rw [Session.recordedSince, h, ← Array.length_toList, List.drop_left]

theorem preserves_of_faithful {fuel : Nat} {t t' : SExp} {s s' : Session} (hrun : KeepsRecord run)
    (h : optimize run fuel t s = .ok t' s') (hfaithful : ∀ r ∈ s.recordedSince s', r.Faithful) : Preserves t t' := by
  obtain ⟨new, hnew, -, hkeep⟩ := optimize_establishes hrun fuel t s t' s' h
  rw [recordedSince_eq hnew] at hfaithful
  exact (hkeep hfaithful).1

theorem made_of_recorded {fuel : Nat} {t t' : SExp} {s s' : Session} (hrun : KeepsRecord run)
    (h : optimize run fuel t s = .ok t' s') : ∀ r ∈ s.recordedSince s', r.Made := by
  obtain ⟨new, hnew, hmade, -⟩ := optimize_establishes hrun fuel t s t' s' h
  rwa [recordedSince_eq hnew]

end Passes
end Optimizer
end Clvm
