import Clvm.Random.Draw
import Mathlib.Data.List.GetD

/-!
# What is always drawn

A property of what is drawn holds always if it holds for every source of words and every state of it, that is, for
every sequence of choices. There is one rule for each way to draw; what is drawn from several draws is taken apart by
them.
-/

namespace Clvm.Random

variable {σ : Type} {α β : Type}

/-- What is drawn has a property, whatever words the source gives. -/
def Always (d : Draw σ α) (P : α → Prop) : Prop := ∀ g, P (d.run g).1

theorem always_pure {P : α → Prop} {a : α} (h : P a) : Always (pure a : Draw σ α) P := fun _ => h

theorem always_bind {P : α → Prop} {Q : β → Prop} {d : Draw σ α} {f : α → Draw σ β} (hd : Always d P)
    (hf : ∀ a, P a → Always (f a) Q) : Always (d >>= f) Q := fun g => hf _ (hd g) _

theorem always_map {P : α → Prop} {Q : β → Prop} {d : Draw σ α} {f : α → β} (hd : Always d P) (hf : ∀ a, P a → Q (f a)) :
    Always (f <$> d) Q := fun g => hf _ (hd g)

theorem Always.mono {P Q : α → Prop} {d : Draw σ α} (hd : Always d P) (h : ∀ a, P a → Q a) : Always d Q :=
  fun g => h _ (hd g)

theorem always_true (d : Draw σ α) : Always d fun _ => True := fun _ => trivial

theorem always_mapM {P : α → Prop} {ds : List (Draw σ α)} (h : ∀ d ∈ ds, Always d P) :
    Always (ds.mapM id) fun as => ∀ a ∈ as, P a := by
  induction ds with
  | nil => exact always_pure (List.forall_mem_nil _)
  | cons d ds ih =>
    rw [List.mapM_cons]
    refine always_bind (h d List.mem_cons_self) fun a ha => ?_
    refine always_bind (ih fun d hd => h d (List.mem_cons_of_mem _ hd)) fun as has => ?_
    exact always_pure (List.forall_mem_cons.mpr ⟨ha, has⟩)

theorem always_times {P : α → Prop} {d : Draw σ α} (n : Nat) (h : Always d P) :
    Always (times n d) fun as => ∀ a ∈ as, P a :=
  always_mapM fun d' hd' => by rwa [List.eq_of_mem_replicate hd']

variable [Source σ]

theorem always_bit : Always (bits 1 : Draw σ Nat) (· < 2) := by
  refine always_bind (always_true _) fun w _ => always_pure ?_
  rw [Nat.shiftRight_eq_div_pow]
  have hw : w.toNat < 2 ^ 32 := w.toNat_lt
  omega

/-- A number is drawn below `n` also if the source has to be left. -/
theorem always_belowWithin {n : Nat} (hn : 0 < n) (k tries : Nat) : Always (belowWithin n k tries : Draw σ Nat) (· < n) := by
  induction tries with
  | zero => exact always_pure hn
  | succ tries ih =>
    refine always_bind (always_true _) fun x _ => ?_
    split
    · exact always_pure ‹x < n›
    · exact ih

theorem always_between {low high : Nat} (h : low ≤ high) :
    Always (between low high : Draw σ Nat) fun n => low ≤ n ∧ n ≤ high := by
  refine always_bind (always_belowWithin (Nat.succ_pos _) _ _) fun x hx => always_pure ?_
  omega

theorem always_choose (first : α) (others : List α) : Always (choose first others : Draw σ α) (· ∈ first :: others) := by
  refine always_bind (always_belowWithin (Nat.succ_pos _) _ _) fun i hi => always_pure ?_
  rw [List.getD_eq_getElem _ _ (by simpa using hi)]
  exact List.getElem_mem _

end Clvm.Random
