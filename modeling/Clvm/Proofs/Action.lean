import Clvm.Machine.Basic

/-!
# Taking actions apart

How an action that succeeds is put together: each part succeeded, one after the other. One that fails has a first part
that fails. Results that do not touch the state are lifted, and succeed in any state.
-/

namespace Clvm.Action

variable {σ α β : Type} {s s' : σ}

@[simp] theorem lift_ok_bind (a : α) (f : α → Action σ β) : (liftM (Except.ok a : Except Error α) : Action σ α) >>= f = f a :=
  rfl

theorem bind_eq_ok {x : Action σ α} {f : α → Action σ β} {b : β} :
    (x >>= f) s = .ok b s' ↔ ∃ a s₁, x s = .ok a s₁ ∧ f a s₁ = .ok b s' := by
  simp only [bind, EStateM.bind]
  cases hx : x s with
  | error e s₁ => simp
  | ok a s₁ =>
    refine ⟨fun h => ⟨a, s₁, rfl, h⟩, ?_⟩
    rintro ⟨_, _, ⟨⟩, h⟩
    exact h

theorem bind_eq_error {x : Action σ α} {f : α → Action σ β} {e : Error} :
    (x >>= f) s = .error e s' ↔ x s = .error e s' ∨ ∃ a s₁, x s = .ok a s₁ ∧ f a s₁ = .error e s' := by
  simp only [bind, EStateM.bind]
  cases hx : x s with
  | error e₁ s₁ => simp
  | ok a s₁ =>
    refine ⟨fun h => .inr ⟨a, s₁, rfl, h⟩, ?_⟩
    rintro (h | ⟨_, _, ⟨⟩, h⟩)
    · cases h
    · exact h

theorem pure_eq_ok {a b : α} : (pure a : Action σ α) s = .ok b s' ↔ a = b ∧ s = s' := by
  show EStateM.Result.ok a s = .ok b s' ↔ _
  simp

theorem lift_eq_ok {x : Except Error α} {a : α} :
    (liftM x : Action σ α) s = .ok a s' ↔ x = .ok a ∧ s = s' := by
  show Action.ofExcept x s = _ ↔ _
  cases x with
  | error e => simp [Action.ofExcept]
  | ok b => simp [Action.ofExcept]

theorem ofExcept_eq_ok {x : Except Error α} {a : α} :
    (Action.ofExcept x : Action σ α) s = .ok a s' ↔ x = .ok a ∧ s = s' := lift_eq_ok

theorem ofExcept_eq_error {x : Except Error α} {e : Error} :
    (Action.ofExcept x : Action σ α) s = .error e s' ↔ x = .error e ∧ s = s' := by
  cases x with
  | error e' => simp [Action.ofExcept]
  | ok b => simp [Action.ofExcept]

theorem ofExcept_bind (x : Except Error α) (f : α → Except Error β) :
    (Action.ofExcept (x >>= f) : Action σ β) = Action.ofExcept x >>= fun a => Action.ofExcept (f a) := by
  cases x <;> rfl

/-- Whether an action succeeds in a state. -/
def isOk (x : Action σ α) (s : σ) : Bool :=
  match x s with
  | .ok _ _ => true
  | .error _ _ => false

theorem isOk_iff {x : Action σ α} : isOk x s = true ↔ ∃ a s', x s = .ok a s' := by
  rw [isOk]
  split <;> simp_all

/-- Running over a list without touching the state. -/
theorem mapM_eq_ok_of_forall {f : α → Action σ β} {g : α → β} {xs : List α}
    (h : ∀ x ∈ xs, f x s = .ok (g x) s) : xs.mapM f s = .ok (xs.map g) s := by
  induction xs with
  | nil => rfl
  | cons x xs ih =>
    have hx := h x List.mem_cons_self
    have hxs := ih fun y hy => h y (List.mem_cons_of_mem x hy)
    rw [List.mapM_cons]
    simp only [bind, EStateM.bind, hx, hxs]
    rfl

/-- What comes of a list, if it is known what can come of its items. -/
theorem eq_map_of_mapM_eq_ok {f : α → Action σ β} {g : α → β} (h : ∀ x s b s', f x s = .ok b s' → b = g x) {xs : List α}
    {ys : List β} (hxs : xs.mapM f s = .ok ys s') : ys = xs.map g := by
  induction xs generalizing s ys with
  | nil => exact (pure_eq_ok.mp hxs).1.symm
  | cons x xs ih =>
    rw [List.mapM_cons] at hxs
    obtain ⟨y, s₁, hy, hxs⟩ := bind_eq_ok.mp hxs
    obtain ⟨ys, s₂, hys, hxs⟩ := bind_eq_ok.mp hxs
    obtain ⟨rfl, rfl⟩ := pure_eq_ok.mp hxs
    rw [List.map_cons, h x s y s₁ hy, ih hys]

/-- A list that comes out as it went in has items that do. -/
theorem mapM_eq_self {f : α → Action σ α} {xs : List α} (h : xs.mapM f s = .ok xs s') :
    ∀ x ∈ xs, ∃ s₁ s₂, f x s₁ = .ok x s₂ := by
  induction xs generalizing s with
  | nil => exact nofun
  | cons x xs ih =>
    rw [List.mapM_cons] at h
    obtain ⟨y, s₁, hx, h⟩ := bind_eq_ok.mp h
    obtain ⟨ys, s₂, hxs, h⟩ := bind_eq_ok.mp h
    obtain ⟨heq, rfl⟩ := pure_eq_ok.mp h
    obtain ⟨rfl, rfl⟩ := List.cons.inj heq
    intro z hz
    rcases List.mem_cons.mp hz with rfl | hz
    · exact ⟨s, s₁, hx⟩
    · exact ih hxs z hz

end Clvm.Action
