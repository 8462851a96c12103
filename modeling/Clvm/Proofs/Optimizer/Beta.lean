import Clvm.Proofs.Optimizer.Substitution

/-!
# Substitution is beta reduction

In a regular program everything that is evaluated is a place with a positive number, a quotation or an operator with a
list of operands. The computation of an environment can be moved into any such program, and what comes out computes in
an environment exactly what the program computes in the one that is computed there.
-/

namespace Clvm.Optimizer
open Machine

section
variable [Curve]

mutual

/-- Wherever it is evaluated, a program is a place whose signed number is positive, a quotation, or an operator in front
of a list of such programs. -/
def Regular : SExp → Prop
  | .atom b => 1 ≤ Bytes.toInt b
  | .pair (.atom op) operands => op = Keyword.quote ∨ AllRegular operands
  | .pair (.pair _ _) _ => False

def AllRegular : SExp → Prop
  | .atom b => b = []
  | .pair x more => Regular x ∧ AllRegular more

end

/-- Operands have the same values, one by one, in two environments. -/
def SameValues (e w : SExp) (ys xs : List SExp) : Prop := ∀ vs, valuesOf e ys = .ok vs ↔ valuesOf w xs = .ok vs

theorem SameValues.cons {e w x y : SExp} {xs ys : List SExp} (hx : ∀ v, valueOf y e = .ok v ↔ valueOf x w = .ok v)
    (h : SameValues e w ys xs) : SameValues e w (y :: ys) (x :: xs) := by
  intro vs
  constructor
  · intro hvs
    obtain ⟨v, more, rfl, hv, hmore⟩ := valuesOf_cons_ok hvs
    exact valuesOf_cons_of_ok ((hx v).mp hv) ((h more).mp hmore)
  · intro hvs
    obtain ⟨v, more, rfl, hv, hmore⟩ := valuesOf_cons_ok hvs
    exact valuesOf_cons_of_ok ((hx v).mpr hv) ((h more).mpr hmore)

/-- An operator gives the same on operands that have the same values. -/
theorem SameValues.operator {op : Bytes} (hop : op ≠ Keyword.quote) {e w s t : SExp} {xs ys : List SExp}
    (h : SameValues e w ys xs) (hs : s.toList = .ok ys) (ht : t.toList = .ok xs) (v : SExp) :
    valueOf (.pair (.atom op) s) e = .ok v ↔ valueOf (.pair (.atom op) t) w = .ok v := by
  rw [valueOf_operator hop, valueOf_operator hop, hs, ht, ok_bind, ok_bind, bind_eq_ok, bind_eq_ok]
  exact exists_congr fun vs => and_congr_left fun _ => h vs

/-- By induction on the program, for programs and for lists of operands at once. -/
theorem substitute_regular (env t : SExp) :
    (Regular t → ∃ moved, substitute env t = .ok moved ∧
      ∀ e w, valueOf env e = .ok w → ∀ v, valueOf moved e = .ok v ↔ valueOf t w = .ok v) ∧
    (AllRegular t → ∃ moved ys xs, substituteAll env t = .ok moved ∧ moved.toList = .ok ys ∧ t.toList = .ok xs ∧
      ∀ e w, valueOf env e = .ok w → SameValues e w ys xs) := by
  induction t with
  | atom b =>
    refine ⟨fun hb => ⟨_, rfl, fun e w hw v => valueOf_placeOf hb hw⟩, ?_⟩
    rintro rfl
    exact ⟨.nil, [], [], rfl, rfl, rfl, fun e w _ vs => Iff.rfl⟩
  | pair x y ihx ihy =>
    refine ⟨fun hregular => ?_, fun ⟨hx, hy⟩ => ?_⟩
    · cases x with
      | pair => exact hregular.elim
      | atom op =>
        by_cases hop : op = Keyword.quote
        · subst hop
          refine ⟨_, by rw [substitute, if_pos rfl], fun e w _ v => ?_⟩
          rw [valueOf_quote, valueOf_quote]
        · obtain ⟨moved, ys, xs, hmoved, hys, hxs, hsame⟩ := ihy.2 (hregular.resolve_left hop)
          refine ⟨.pair (.atom op) moved, by rw [substitute, if_neg hop, hmoved]; rfl, fun e w hw v => ?_⟩
          exact (hsame e w hw).operator hop hys hxs v
    · obtain ⟨x', hx', hvalue⟩ := ihx.1 hx
      obtain ⟨moved, ys, xs, hmoved, hys, hxs, hsame⟩ := ihy.2 hy
      refine ⟨.pair x' moved, x' :: ys, x :: xs, by rw [substituteAll, hx', hmoved]; rfl, by rw [toList_pair, hys, ok_bind],
        by rw [toList_pair, hxs, ok_bind], fun e w hw => (hsame e w hw).cons (hvalue e w hw)⟩

/-- The computation of an environment can be moved into every regular program. Where that computation has a value, what
comes out has exactly the values that the program has there. -/
theorem substitute_is_beta {body env : SExp} (h : Regular body) :
    ∃ moved, substitute env body = .ok moved ∧
      ∀ e w, valueOf env e = .ok w → ∀ v, valueOf moved e = .ok v ↔ valueOf body w = .ok v :=
  (substitute_regular env body).1 h

end

/-- Moving `(c 3 (c (q . 9) 1))` into `(c 5 (a (q . 2) 2))` gives `(c (q . 9) (a (q . 2) 3))`. -/
theorem substitute_is_beta_sample :
    let body := Form.cons (.atom [5]) (Form.apply (Form.quote (.atom [2])) (.atom [2]))
    let env := Form.cons (.atom [3]) (Form.cons (Form.quote (.atom [9])) (.atom [1]))
    let e := SExp.ofList [.atom [7], .atom [8]]
    let w := SExp.pair (.ofList [.atom [8]]) (.pair (.atom [9]) e)
    let moved := Form.cons (Form.quote (.atom [9])) (Form.apply (Form.quote (.atom [2])) (.atom [3]))
    Regular body ∧ valueOf env e = .ok w ∧ valueOf body w = .ok (.pair (.atom [9]) (.atom [8])) ∧
      substitute env body = .ok moved ∧ valueOf moved e = .ok (.pair (.atom [9]) (.atom [8])) := by
  intro body env e w moved
  have htwo : 1 ≤ Bytes.toInt [2] := by decide
  have hfive : 1 ≤ Bytes.toInt [5] := by decide
  have hregular : Regular body := .inr ⟨hfive, .inr ⟨.inl rfl, htwo, rfl⟩, rfl⟩
  have hw : valueOf env e = .ok w := @valueOf_of_run _ 20 env e _ rfl nofun
  have hv : valueOf body w = .ok (.pair (.atom [9]) (.atom [8])) := @valueOf_of_run _ 20 body w _ rfl nofun
  obtain ⟨moved', hmoved', hvalue⟩ := @substitute_is_beta _ body env hregular
  obtain rfl : moved = moved' := Except.ok.inj hmoved'
  exact ⟨hregular, hw, hv, hmoved', (hvalue e w hw _).mpr hv⟩

end Clvm.Optimizer
