import Clvm.Compiler.Basic
import Clvm.Proofs.Action

/-!
# Compiling with enough fuel

More fuel keeps the program that an expression compiles to. `Compiles` and `CompilesQuasi` say what is compiled with
enough fuel, so that rules about them need not count it.
-/

namespace Clvm

namespace Action

/-- Whatever an action gives, another gives as well. -/
def Refines {σ α : Type} (x y : Action σ α) : Prop := ∀ s a s', x s = .ok a s' → y s = .ok a s'

section Refines
variable {σ α β : Type} {x y : Action σ α}

theorem Refines.refl (x : Action σ α) : Refines x x := fun _ _ _ h => h

theorem Refines.bind {f g : α → Action σ β} (hx : Refines x y) (hf : ∀ a, Refines (f a) (g a)) :
    Refines (x >>= f) (y >>= g) := by
  intro s b s' h
  obtain ⟨a, s₁, ha, hb⟩ := bind_eq_ok.mp h
  exact bind_eq_ok.mpr ⟨a, s₁, hx s a s₁ ha, hf a s₁ b s' hb⟩

theorem refines_mapM {f g : α → Action σ β} (hf : ∀ a, Refines (f a) (g a)) (xs : List α) :
    Refines (xs.mapM f) (xs.mapM g) := by
  induction xs with
  | nil => exact .refl _
  | cons x xs ih =>
    rw [List.mapM_cons, List.mapM_cons]
    exact (hf x).bind fun _ => ih.bind fun _ => .refl _

end Refines
end Action

namespace Compiler

variable {scope : Scope}

theorem refines_compile (fuel : Nat) :
    (∀ source, Action.Refines (compile scope fuel source) (compile scope (fuel + 1) source)) ∧
      ∀ level args, Action.Refines (compileQuasi scope fuel level args) (compileQuasi scope (fuel + 1) level args) := by
  induction fuel with
  | zero =>
    refine ⟨fun source s p s' h => ?_, fun level args s p s' h => ?_⟩
    · cases h
    · cases h
  | succ fuel ih =>
    obtain ⟨ihc, ihq⟩ := ih
    refine ⟨fun source => ?_, fun level args => ?_⟩
    · rw [compile, compile]
      refine (Action.Refines.refl _).bind fun lowered => ?_
      split
      · exact .refl _
      · exact .refl _
      · refine (Action.Refines.refl _).bind fun code => ?_
        split
        · exact .refl _
        · split
          · exact (ihq _ _).bind fun _ => .refl _
          · split
            · exact .refl _
            · split
              · exact .refl _
              · split
                · exact .refl _
                · split
                  · exact .refl _
                  · exact (Action.refines_mapM ihc _).bind fun _ => .refl _
    · rw [compileQuasi, compileQuasi]
      refine (Action.Refines.refl _).bind fun template => ?_
      split
      · exact .refl _
      · exact (ihc _).bind fun _ => (ihc _).bind fun _ => .refl _
      · split
        · exact (ihq _ _).bind fun _ => ihc _
        · split
          · split
            · exact (Action.Refines.refl _).bind fun _ => ihc _
            · exact (ihq _ _).bind fun _ => ihc _
          · exact (ihc _).bind fun _ => (ihc _).bind fun _ => .refl _

/-- More fuel keeps the program. -/
theorem compile_of_le {k fuel : Nat} (hk : k ≤ fuel) {source program : SExp} {w w' : Session}
    (h : compile scope k source w = .ok program w') : compile scope fuel source w = .ok program w' := by
  induction hk with
  | refl => exact h
  | step _ ih => exact (refines_compile _).1 source w program w' ih

/-- The program that an expression compiles to with enough fuel. -/
def Compiles (scope : Scope) (source : SExp) (w : Session) (program : SExp) (w' : Session) : Prop :=
  ∃ n, ∀ fuel, n ≤ fuel → compile scope fuel source w = .ok program w'

/-- The program that a quasi-quotation at a level compiles to with enough fuel. -/
def CompilesQuasi (scope : Scope) (level : Int) (template : SExp) (w : Session) (program : SExp) (w' : Session) : Prop :=
  ∃ n, ∀ fuel, n ≤ fuel → compileQuasi scope fuel level (.ofList [template]) w = .ok program w'

theorem compiles_of_compile {fuel : Nat} {source program : SExp} {w w' : Session}
    (h : compile scope fuel source w = .ok program w') : Compiles scope source w program w' :=
  ⟨fuel, fun _ hk => compile_of_le hk h⟩

end Compiler
end Clvm
