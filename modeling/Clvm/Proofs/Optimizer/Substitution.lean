import Clvm.Proofs.Optimizer.Passes

/-!
# Moving the computation of an environment

A program that runs on a computed environment does the same when every place that it reads is computed where it is
read. The optimiser reads the number of a place with its sign, and takes the whole environment where that is not
positive. An operator in parentheses takes its operands as they stand, so nothing may be moved into them.
-/

namespace Clvm.Optimizer
open Machine

theorem placeOf_whole {b : Bytes} (hb : Bytes.toInt b ≤ 0) (env : SExp) : placeOf (Bytes.toInt b) env = env := by
  cases h : Bytes.toInt b with
  | negSucc n => rfl
  | ofNat n =>
    have hn : n = 0 := by
      rw [h] at hb
      exact Int.ofNat_eq_zero.mp (Int.le_antisymm hb (Int.natCast_nonneg n))
    rw [hn]
    rfl

theorem substitute_lone (env : SExp) (op : Bytes) :
    substitute env (.pair (.atom op) .nil) = .ok (.pair (.atom op) .nil) := by
  unfold substitute
  split <;> rfl

variable [Curve]

mutual

/-- Every place that a program reads has a positive signed number or holds all of what `env` computes, and operands
that are not evaluated stay as they are when `env` is moved into them. -/
def Movable (env : SExp) : SExp → Prop
  | .atom b => 0 < Bytes.toInt b ∨ ∀ e w v, valueOf env e = .ok w → valueOf (.atom b) w = .ok v → v = w
  | .pair (.atom op) operands => op = Keyword.quote ∨ AllMovable env operands
  | .pair (.pair x y) operands =>
    isLoneCall (.pair (.pair x y) operands) = true → substituteAll env operands = .ok operands

def AllMovable (env : SExp) : SExp → Prop
  | .atom _ => True
  | .pair x more => Movable env x ∧ AllMovable env more

end

/-! ### Parts of what a program computes -/

section Parts
variable {t env w v : SExp}

theorem valueOf_cons_eq_ok {x y : SExp} (h : valueOf (Form.cons x y) env = .ok w) :
    ∃ a b, w = .pair a b ∧ valueOf x env = .ok a ∧ valueOf y env = .ok b := by
  rw [valueOf_formCons] at h
  obtain ⟨b, hb, h⟩ := bind_eq_ok.mp h
  obtain ⟨a, ha, h⟩ := bind_eq_ok.mp h
  cases h
  exact ⟨a, b, rfl, ha, hb⟩

theorem valueOf_firstOf (h : valueOf t env = .ok w) : valueOf (firstOf t) env = w.first := by
  fun_cases firstOf t with
  | case1 x y =>
    obtain ⟨a, b, rfl, ha, -⟩ := valueOf_cons_eq_ok h
    exact ha
  | case2 => rw [valueOf_formFirst, h, ok_bind]

theorem valueOf_restOf (h : valueOf t env = .ok w) : valueOf (restOf t) env = w.rest := by
  fun_cases restOf t with
  | case1 x y =>
    obtain ⟨a, b, rfl, -, hb⟩ := valueOf_cons_eq_ok h
    exact hb
  | case2 => rw [valueOf_formRest, h, ok_bind]

/-- A program that does not put a pair together and whose value, if it has one, is no pair. -/
def Stuck (env t : SExp) : Prop := (∀ x y, t ≠ Form.cons x y) ∧ ∀ x y, valueOf t env ≠ .ok (.pair x y)

/-- What is computed from such a program as a whole is computed in vain, if it is a part that atoms lack. -/
theorem Stuck.part {t' : SExp} {part : SExp → Except Error SExp} (h : Stuck env t) (hcons : ∀ x y, t' ≠ Form.cons x y)
    (hvalue : valueOf t' env = valueOf t env >>= part) (hatom : ∀ b v, part (.atom b) ≠ .ok v) :
    Stuck env t' ∧ ∀ v, valueOf t' env ≠ .ok v := by
  have hnone : ∀ v, valueOf t' env ≠ .ok v := by
    intro v hv
    rw [hvalue] at hv
    obtain ⟨w, hw, hpart⟩ := bind_eq_ok.mp hv
    cases w with
    | atom b => exact hatom b v hpart
    | pair x y => exact h.2 x y hw
  exact ⟨⟨hcons, fun x y => hnone _⟩, hnone⟩

theorem Stuck.turn (h : Stuck env t) (right : Bool) :
    Stuck env (if right then restOf t else firstOf t) ∧ ∀ v, valueOf (if right then restOf t else firstOf t) env ≠ .ok v := by
  cases right with
  | false =>
    have hform : firstOf t = Form.first t := by
      fun_cases firstOf t with
      | case1 x y => exact absurd rfl (h.1 x y)
      | case2 => rfl
    simp only [Bool.false_eq_true, ↓reduceIte, hform]
    exact h.part (fun x y heq => by cases heq) (valueOf_formFirst t env) (fun b v hv => by cases hv)
  | true =>
    have hform : restOf t = Form.rest t := by
      fun_cases restOf t with
      | case1 x y => exact absurd rfl (h.1 x y)
      | case2 => rfl
    simp only [↓reduceIte, hform]
    exact h.part (fun x y heq => by cases heq) (valueOf_formRest t env) (fun b v hv => by cases hv)

theorem Stuck.turns (h : Stuck env t) (right : Bool) (bits : List Bool) (v : SExp) :
    valueOf ((right :: bits).foldl (fun t right => if right then restOf t else firstOf t) t) env ≠ .ok v := by
  induction bits generalizing t right with
  | nil => exact (h.turn right).2 v
  | cons right' bits ih => exact ih (h.turn right).1 right'

theorem stuck_of_atom {b : Bytes} (h : valueOf t env = .ok (.atom b)) : Stuck env t := by
  refine ⟨?_, fun x y hpair => by rw [h] at hpair; cases hpair⟩
  rintro x y rfl
  obtain ⟨_, _, hpair, -⟩ := valueOf_cons_eq_ok h
  cases hpair

theorem valueOf_turns (bits : List Bool) (h : valueOf t env = .ok w) :
    valueOf (bits.foldl (fun t right => if right then restOf t else firstOf t) t) env = .ok v ↔ descend bits w = .ok v := by
  induction bits generalizing t w with
  | nil =>
    rw [List.foldl_nil, h]
    rfl
  | cons right bits ih =>
    cases w with
    | atom b => exact iff_of_false ((stuck_of_atom h).turns right bits v) (fun hv => by cases hv)
    | pair x y =>
      cases right with
      | false => exact ih (valueOf_firstOf h)
      | true => exact ih (valueOf_restOf h)

theorem valueOf_placeOf {b : Bytes} (hb : 0 < Bytes.toInt b) (h : valueOf t env = .ok w) :
    valueOf (placeOf (Bytes.toInt b) t) env = .ok v ↔ valueOf (.atom b) w = .ok v := by
  have hnat := Bytes.toInt_eq_toNat (by omega : 0 ≤ Bytes.toInt b)
  have hzero : Bytes.toNat b ≠ 0 := by omega
  rw [valueOf_path, placeAt, if_neg hzero, hnat]
  exact valueOf_turns _ h

end Parts

/-! ### The whole program -/

theorem substitute_spec {env e w : SExp} (hw : valueOf env e = .ok w) (t : SExp) :
    (Movable env t → ∀ moved, substitute env t = .ok moved → ∀ v, valueOf t w = .ok v → valueOf moved e = .ok v) ∧
    (AllMovable env t → ∀ moved, substituteAll env t = .ok moved → ∀ xs vs, t.toList = .ok xs →
      valuesOf w xs = .ok vs → ∃ ys, moved.toList = .ok ys ∧ valuesOf e ys = .ok vs) := by
  induction t with
  | atom b =>
    refine ⟨fun hm moved hs v hv => ?_, fun _ moved hs xs vs hxs hvs => ?_⟩
    · cases hs
      by_cases hb : 0 < Bytes.toInt b
      · exact (valueOf_placeOf hb hw).mpr hv
      · rw [placeOf_whole (by omega), hm.resolve_left hb e w v hw hv]
        exact hw
    · cases b with
      | nil =>
        cases hs
        cases hxs
        exact ⟨[], rfl, hvs⟩
      | cons x b => cases hs
  | pair x y ihx ihy =>
    refine ⟨fun hm moved hs v hv => ?_, fun hm moved hs xs vs hxs hvs => ?_⟩
    · cases x with
      | atom op =>
        by_cases hq : op = Keyword.quote
        · subst hq
          cases hs
          rw [valueOf_quote] at hv ⊢
          exact hv
        · rw [substitute, if_neg hq] at hs
          obtain ⟨moved', hmoved', hs⟩ := bind_eq_ok.mp hs
          cases hs
          rw [valueOf_operator hq] at hv
          obtain ⟨xs, hxs, hv⟩ := bind_eq_ok.mp hv
          obtain ⟨vs, hvs, hv⟩ := bind_eq_ok.mp hv
          obtain ⟨ys, hys, hvs'⟩ := ihy.2 (hm.resolve_left hq) moved' hmoved' xs vs hxs hvs
          rw [valueOf_operator hq, hys, ok_bind, hvs', ok_bind, hv]
      | pair x₁ x₂ =>
        cases hlone : isLoneCall (.pair (.pair x₁ x₂) y) with
        | false => exact absurd hv (valueOf_of_not_isLoneCall hlone)
        | true =>
          obtain ⟨op, _, ht, -⟩ := isLoneCall_eq_true hlone
          cases ht
          have hrigid : substituteAll env y = .ok y := hm hlone
          rw [substitute, substitute_lone, hrigid] at hs
          cases hs
          exact (valueOf_lone op y e).trans ((valueOf_lone op y w).symm.trans hv)
    · obtain ⟨hx, hy⟩ := hm
      rw [substituteAll] at hs
      obtain ⟨x', hx', hs⟩ := bind_eq_ok.mp hs
      obtain ⟨y', hy', hs⟩ := bind_eq_ok.mp hs
      cases hs
      rw [toList_pair] at hxs
      obtain ⟨xs, hlist, hxs⟩ := bind_eq_ok.mp hxs
      cases hxs
      obtain ⟨v, vs, rfl, hv, hvs⟩ := valuesOf_cons_ok hvs
      obtain ⟨ys, hys, hvs'⟩ := ihy.2 hy y' hy' xs vs hlist hvs
      refine ⟨x' :: ys, by rw [toList_pair, hys, ok_bind], ?_⟩
      exact valuesOf_cons_of_ok (ihx.1 hx x' hx' v hv) hvs'

/-- Moving the computation of its environment into a program keeps the program's value. -/
theorem substitute_preserves {body env moved : SExp} (hm : Movable env body) (h : substitute env body = .ok moved) :
    Preserves (Form.apply (Form.quote body) env) moved := by
  intro e v hv
  rw [valueOf_formApply] at hv
  obtain ⟨w, hw, hv⟩ := bind_eq_ok.mp hv
  rw [valueOf_formQuote, ok_bind] at hv
  exact (substitute_spec hw body).1 hm moved h v hv

/-- Computing a place where it is read keeps values just when the place can be moved. -/
theorem placeOf_preserves_iff (b : Bytes) (env : SExp) :
    Preserves (Form.apply (Form.quote (.atom b)) env) (placeOf (Bytes.toInt b) env) ↔ Movable env (.atom b) := by
  refine ⟨fun hkeep => ?_, fun hm => substitute_preserves hm rfl⟩
  by_cases hb : 0 < Bytes.toInt b
  · exact .inl hb
  · refine .inr fun e w v hw hv => ?_
    have hkept := hkeep e v (by rw [valueOf_formApply, hw, ok_bind, valueOf_formQuote, ok_bind, hv])
    rw [placeOf_whole (by omega), hw] at hkept
    exact (Except.ok.inj hkept).symm

end Clvm.Optimizer
