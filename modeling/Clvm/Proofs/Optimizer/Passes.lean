import Clvm.Optimizer.Basic
import Clvm.Proofs.Form
import Mathlib.Data.List.Forall2

/-!
# Passes keep values

A pass may change when a program fails, but not the value of a program that has one. That a program which seems
constant has the same value everywhere is what makes it right to run it once.
-/

namespace Clvm.Optimizer
open Machine

theorem toList_pair (x y : SExp) : (SExp.pair x y).toList = y.toList >>= fun ys => .ok (x :: ys) := by
  show (y.checkProper >>= fun _ => .ok (x :: y.items)) = (y.checkProper >>= fun _ => .ok y.items) >>= _
  cases y.checkProper <;> rfl

/-- Neither the outcome nor the cost of a constant program depends on the environment, whatever the operators do. -/
theorem seemsConstant_spec {σ : Type} (ops : Operators σ) (t : SExp) :
    (seemsConstant t = .ok true → ∀ env env', eval ops t env = eval ops t env') ∧
    (allSeemConstant t = .ok true →
      ∃ xs, t.toList = .ok xs ∧ ∀ env env', evalOperands ops env xs = evalOperands ops env' xs) := by
  induction t with
  | atom b =>
    cases b with
    | nil =>
      refine ⟨fun _ env env' => ?_, fun _ => ⟨[], rfl, fun _ _ => rfl⟩⟩
      rw [eval_atom, eval_atom]
      rfl
    | cons x b => exact ⟨nofun, nofun⟩
  | pair x y ihx ihy =>
    refine ⟨fun h env env' => ?_, fun h => ?_⟩
    · cases x with
      | atom op =>
        by_cases hq : op = Keyword.quote
        · subst hq
          rw [eval_quote, eval_quote]
        · simp only [seemsConstant, if_neg hq] at h
          split at h
          · cases h
          · obtain ⟨xs, hxs, hall⟩ := ihy.2 h
            have happly : ∀ e, eval ops (.pair (.atom op) y) e = evalOperands ops e xs >>= fun args =>
                applyOperator ops op args.2 >>= fun r => pure (1 + args.1 + r.1, r.2) := fun e => by
              rw [eval_operator hq, hxs]
              rfl
            rw [happly env, happly env', hall env env']
      | pair x₁ x₂ =>
        -- The operands of an operator in parentheses are not evaluated.
        by_cases hlone : ∃ op, SExp.pair x₁ x₂ = .pair (.atom op) .nil
        · obtain ⟨op, hop⟩ := hlone
          rw [hop, eval_lone, eval_lone]
        · have hne : ∀ op, SExp.pair x₁ x₂ ≠ .pair (.atom op) .nil := fun op hop => hlone ⟨op, hop⟩
          rw [eval_not_lone hne, eval_not_lone hne]
    · simp only [allSeemConstant] at h
      obtain ⟨c, hc, h⟩ := bind_eq_ok.mp h
      cases c with
      | false => cases h
      | true =>
        obtain ⟨xs, hxs, hall⟩ := ihy.2 h
        refine ⟨x :: xs, by rw [toList_pair, hxs, ok_bind], fun env env' => ?_⟩
        rw [evalOperands_cons, evalOperands_cons, hall env env', ihx.1 hc env env']

theorem quotedCall?_eq_some {t body arg : SExp} (h : quotedCall? t = some (body, arg)) :
    t = Form.apply (Form.quote body) arg := by
  fun_cases quotedCall? t with
  | case1 => cases h; rfl
  | case2 => simp [quotedCall?] at h

theorem toInt_eq_one {b : Bytes} (h : Bytes.toInt b = 1) : Bytes.toNat b = 1 := by
  have := Bytes.toInt_eq_toNat (b := b) (by omega)
  omega

theorem placeAt_left_iff (w v : SExp) : placeAt Path.left.index w = .ok v ↔ w.first = .ok v := by
  cases w with
  | atom b => exact iff_of_false nofun nofun
  | pair x y => exact Iff.rfl

theorem placeAt_right_iff (w v : SExp) : placeAt Path.right.index w = .ok v ↔ w.rest = .ok v := by
  cases w with
  | atom b => exact iff_of_false nofun nofun
  | pair x y => exact Iff.rfl

/-- An operator in parentheses, which takes its operands as they stand. Raising an error never gives a value. -/
def isLoneCall : SExp → Bool
  | .pair (.pair (.atom op) (.atom [])) _ => op != Keyword.raise
  | _ => false

theorem isLoneCall_eq_true {t : SExp} (h : isLoneCall t = true) :
    ∃ op operands, t = .pair (.pair (.atom op) .nil) operands ∧ op ≠ Keyword.raise := by
  fun_cases isLoneCall t with
  | case1 op operands => exact ⟨op, operands, rfl, by simpa [isLoneCall] using h⟩
  | case2 => simp [isLoneCall] at h

variable [Curve]

/-- Wherever the first program has a value, the second has the same. -/
def Preserves (t t' : SExp) : Prop := ∀ env v, valueOf t env = .ok v → valueOf t' env = .ok v

theorem Preserves.refl (t : SExp) : Preserves t t := fun _ _ h => h

theorem Preserves.trans {t t' t'' : SExp} (h : Preserves t t') (h' : Preserves t' t'') : Preserves t t'' :=
  fun env v hv => h' env v (h env v hv)

/-! ### Lists of operands -/

theorem valuesOf_cons_ok {env x : SExp} {xs vs : List SExp} (h : valuesOf env (x :: xs) = .ok vs) :
    ∃ v more, vs = v :: more ∧ valueOf x env = .ok v ∧ valuesOf env xs = .ok more := by
  rw [valuesOf_cons] at h
  obtain ⟨more, hmore, h⟩ := bind_eq_ok.mp h
  obtain ⟨v, hv, h⟩ := bind_eq_ok.mp h
  cases h
  exact ⟨v, more, rfl, hv, hmore⟩

theorem valuesOf_cons_of_ok {env x v : SExp} {xs vs : List SExp} (hx : valueOf x env = .ok v)
    (hxs : valuesOf env xs = .ok vs) : valuesOf env (x :: xs) = .ok (v :: vs) := by
  rw [valuesOf_cons, hxs, ok_bind, hx, ok_bind]

theorem valuesOf_preserves {xs ys : List SExp} (h : List.Forall₂ Preserves xs ys) {env : SExp} {vs : List SExp}
    (hv : valuesOf env xs = .ok vs) : valuesOf env ys = .ok vs := by
  induction h generalizing vs with
  | nil => exact hv
  | cons hx _ ih =>
    obtain ⟨v, more, rfl, hv, hmore⟩ := valuesOf_cons_ok hv
    exact valuesOf_cons_of_ok (hx env v hv) (ih hmore)

/-! ### Constant programs -/

theorem valueOf_of_seemsConstant {t : SExp} (h : seemsConstant t = .ok true) (env env' : SExp) :
    valueOf t env = valueOf t env' := by
  rw [valueOf_eq, valueOf_eq, value, value, (seemsConstant_spec Operators.base t).1 h env env']

/-! ### Passes on the shape of a program -/

theorem takeApart_preserves (t : SExp) : Preserves t (takeApart t) := by
  fun_cases takeApart t with
  | case1 x y =>
    intro env v (h : valueOf (Form.first (Form.cons x y)) env = .ok v)
    rw [valueOf_formFirst, valueOf_formCons] at h
    obtain ⟨p, hp, h⟩ := bind_eq_ok.mp h
    obtain ⟨b, -, hp⟩ := bind_eq_ok.mp hp
    obtain ⟨a, ha, hp⟩ := bind_eq_ok.mp hp
    cases hp
    cases h
    exact ha
  | case2 x y =>
    intro env v (h : valueOf (Form.rest (Form.cons x y)) env = .ok v)
    rw [valueOf_formRest, valueOf_formCons] at h
    obtain ⟨p, hp, h⟩ := bind_eq_ok.mp h
    obtain ⟨b, hb, hp⟩ := bind_eq_ok.mp hp
    obtain ⟨a, -, hp⟩ := bind_eq_ok.mp hp
    cases hp
    cases h
    exact hb
  | case3 => exact .refl _

theorem unwrapApply_preserves (t : SExp) : Preserves t (unwrapApply t) := by
  rw [unwrapApply]
  split
  · rename_i body arg hcall
    split
    · rename_i hwhole
      rw [quotedCall?_eq_some hcall]
      cases arg with
      | pair x y => cases hwhole
      | atom b =>
        have hone : Bytes.toNat b = 1 := toInt_eq_one (by simpa [isWholeEnv] using hwhole)
        intro env v h
        rw [valueOf_formApply, valueOf_path, hone, valueOf_formQuote] at h
        exact h
    · exact .refl t
  · exact .refl t

theorem dropQuotedNil_preserves (t : SExp) : Preserves t (dropQuotedNil t) := by
  fun_cases dropQuotedNil t with
  | case1 =>
    intro env v h
    rw [← h]
    exact (valueOf_nil env).trans (valueOf_quote .nil env).symm
  | case2 => exact .refl t

/-- Wherever applying nil has a value, the value is nil. -/
theorem dropAppliedNil_preserves (t : SExp) : Preserves t (dropAppliedNil t) := by
  fun_cases dropAppliedNil t with
  | case1 operands =>
    intro env v h
    rw [valueOf_operator (by decide)] at h
    obtain ⟨xs, hxs, h⟩ := bind_eq_ok.mp h
    obtain ⟨vs, hvs, h⟩ := bind_eq_ok.mp h
    rw [toList_pair] at hxs
    obtain ⟨ys, -, hxs⟩ := bind_eq_ok.mp hxs
    cases hxs
    obtain ⟨w, more, rfl, hw, -⟩ := valuesOf_cons_ok hvs
    have hnil : w = .nil := Except.ok.inj (hw.symm.trans (valueOf_nil env))
    subst hnil
    match more, h with
    | [arg], h => exact (valueOf_nil env).trans ((valueOf_nil arg).symm.trans h)
  | case2 => exact .refl t

/-! ### Merging paths -/

theorem valueOf_toSExp (p : Path) (env : SExp) : valueOf p.toSExp env = placeAt p.index env :=
  valueOf_formPath p.index env

theorem valueOf_extendPath {b : Bytes} {q : Path} {t : SExp} (hb : Path.KeepsWidth b) (hq : q.index ≠ 0)
    (hzero : Bytes.toNat b ≠ 0) (h : extendPath b q = .ok t) (env : SExp) :
    valueOf t env = valueOf (.atom b) env >>= placeAt q.index := by
  rw [extendPath, Path.ofInt_toInt hb] at h
  cases h
  rw [valueOf_toSExp, valueOf_path]
  exact placeAt_compose hzero hq env

/-- A path that keeps its width can be extended, and the longer path leads to the part of what the shorter leads to. Only
the bytes of zero lead nowhere, and have no parts. -/
theorem extendPath_spec {b : Bytes} (hwidth : Path.KeepsWidth b) {q : Path} (hq : q.index ≠ 0)
    {part : SExp → Except Error SExp} (hpart : ∀ w v, placeAt q.index w = .ok v ↔ part w = .ok v)
    (hatom : ∀ v, part .nil ≠ .ok v) :
    ∃ p, extendPath b q = .ok (.atom p) ∧
      ∀ env v, (valueOf (.atom b) env >>= part) = .ok v ↔ Bytes.toNat b ≠ 0 ∧ valueOf (.atom p) env = .ok v := by
  have hextend : extendPath b q = .ok (Path.compose ⟨Bytes.toNat b⟩ q).toSExp := by
    rw [extendPath, Path.ofInt_toInt hwidth]
    rfl
  refine ⟨_, hextend, fun env v => ?_⟩
  by_cases hzero : Bytes.toNat b = 0
  · rw [valueOf_path, hzero]
    exact iff_of_false (hatom v) fun h => h.1 rfl
  · rw [bind_eq_ok]
    refine Iff.trans ?_ (and_iff_right hzero).symm
    rw [show SExp.atom (Path.compose ⟨Bytes.toNat b⟩ q).toBytes = (Path.compose ⟨Bytes.toNat b⟩ q).toSExp from rfl,
      valueOf_extendPath hwidth hq hzero hextend, bind_eq_ok]
    exact exists_congr fun w => and_congr_right fun _ => (hpart w v).symm

theorem mergePath_preserves {t t' : SExp} (hwidth : ∀ op b, t = .ofList [.atom op, .atom b] → Path.KeepsWidth b)
    (h : mergePath t = .ok t') : Preserves t t' := by
  fun_cases mergePath t with
  | case1 x xs =>
    obtain ⟨p, hp, hvalue⟩ := extendPath_spec (hwidth _ _ rfl) (q := .left) (by decide) placeAt_left_iff nofun
    obtain rfl : SExp.atom p = t' := Except.ok.inj (hp.symm.trans h)
    intro env v hv
    exact ((hvalue env v).mp ((valueOf_formFirst (.atom (x :: xs)) env).symm.trans hv)).2
  | case2 x xs =>
    obtain ⟨p, hp, hvalue⟩ := extendPath_spec (hwidth _ _ rfl) (q := .right) (by decide) placeAt_right_iff nofun
    obtain rfl : SExp.atom p = t' := Except.ok.inj (hp.symm.trans h)
    intro env v hv
    exact ((hvalue env v).mp ((valueOf_formRest (.atom (x :: xs)) env).symm.trans hv)).2
  | case3 h1 h2 =>
    have : t = t' := by simpa [mergePath] using h
    rw [this]
    exact .refl t'

/-! ### Operands one by one -/

theorem valueOf_of_not_isLoneCall {x y operands env v : SExp}
    (h : isLoneCall (.pair (.pair x y) operands) = false) : valueOf (.pair (.pair x y) operands) env ≠ .ok v := by
  intro hv
  by_cases hlone : ∃ op, SExp.pair x y = .pair (.atom op) .nil
  · obtain ⟨op, hop⟩ := hlone
    rw [hop] at h hv
    have hraise : op = Keyword.raise := by simpa [isLoneCall, SExp.nil] using h
    rw [hraise, valueOf_lone] at hv
    cases hv
  · rw [valueOf_not_lone fun op hop => hlone ⟨op, hop⟩] at hv
    cases hv

/-- What optimising a program gives: a program with its values, and an atom as it is. -/
def Optimized (t t' : SExp) : Prop := Preserves t t' ∧ ∀ b, t = .atom b → t' = t

/-- Replacing the parts of a program one by one by parts with the same values. An atom as operator stays. -/
theorem ofList_preserves {t : SExp} {parts : List SExp} (hlone : isLoneCall t = false)
    (hquote : ∀ x, t ≠ .pair (.atom Keyword.quote) x) (hpair : t.isPair = true) (hproper : t.checkProper = .ok ())
    (h : List.Forall₂ Optimized t.items parts) : Preserves t (.ofList parts) := by
  cases t with
  | atom b => cases hpair
  | pair op operands =>
    cases op with
    | pair x y => exact fun env v hv => absurd hv (valueOf_of_not_isLoneCall hlone)
    | atom op =>
      have hop : op ≠ Keyword.quote := fun hop => hquote operands (by rw [hop])
      obtain ⟨op', parts, ⟨-, hatom⟩, hparts, rfl⟩ := List.forall₂_cons_left_iff.mp h
      have hop' := hatom op rfl
      subst hop'
      have hlist : operands.toList = .ok operands.items := by
        show (operands.checkProper >>= fun _ => _) = _
        rw [show operands.checkProper = .ok () from hproper]
        rfl
      intro env v hv
      rw [valueOf_operator hop, hlist, ok_bind] at hv
      obtain ⟨vs, hvs, hv⟩ := bind_eq_ok.mp hv
      have hvs' := valuesOf_preserves (hparts.imp fun _ _ h => h.1) hvs
      show valueOf (.pair (.atom op) (.ofList parts)) env = .ok v
      rw [valueOf_list hop, hvs', ok_bind, hv]

end Clvm.Optimizer
