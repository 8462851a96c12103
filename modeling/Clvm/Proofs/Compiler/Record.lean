import Clvm.Proofs.Compiler.Effects

/-!
# The record of reductions grows

Whatever is compiled, optimised or run, the reductions recorded before stay recorded, in their order, and what comes
after them was made by a pass of the optimiser. So the runner of the compiler keeps the record.
-/

namespace Clvm.Compiler
open Machine Optimizer

/-- A later session, with more reductions in its record that passes do make. -/
def Grown : Effect where
  rel s t := ∃ new, t.reductions.toList = s.reductions.toList ++ new ∧ ∀ r ∈ new, r.Made
  refl s := ⟨[], (List.append_nil _).symm, nofun⟩
  trans := by
    rintro s t u ⟨new, hnew, hmade⟩ ⟨more, hmore, hmade'⟩
    refine ⟨new ++ more, by rw [hmore, hnew, List.append_assoc], fun r hr => ?_⟩
    exact (List.mem_append.mp hr).elim (hmade r) (hmade' r)
  record s r hr := ⟨[r], Array.toList_push, fun r' hr' => List.mem_singleton.mp hr' ▸ hr⟩
  write s _ _ _ := ⟨[], (List.append_nil _).symm, nofun⟩

variable [Curve]

theorem keepsRecord_of_keeps {run : Runner} (h : ∀ form env, Keeps Grown (run form env)) : KeepsRecord run := by
  intro form env s a s' hs
  obtain ⟨new, hnew, hmade⟩ := h form env s a s' hs
  exact ⟨new, hnew, hmade, fun _ => trivial⟩

/-- The runner of the compiler keeps the record of reductions. -/
theorem runner_keepsRecord (settings : Settings) (levels : Nat) : KeepsRecord (runner settings levels) :=
  keepsRecord_of_keeps (keeps_runner settings levels)

/-- The machine itself as a runner. -/
def machineRunner (fuel : Nat) : Runner := evaluate (.plain Operators.base) fuel

theorem keeps_machineRunner {R : Effect} (fuel : Nat) (form env : SExp) : Keeps R (machineRunner fuel form env) :=
  keeps_evaluate keeps_base fuel form env

theorem machineRunner_keepsRecord (fuel : Nat) : KeepsRecord (machineRunner fuel) :=
  keepsRecord_of_keeps (keeps_machineRunner fuel)

end Clvm.Compiler
