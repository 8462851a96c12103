import Clvm.Proofs.Path

/-!
# Values of the common forms

What the forms that programs are put together from come to. Operands are computed from the last to the first,
which decides the failure when several of them fail.
-/

namespace Clvm.Machine

@[simp] theorem ok_bind {α β : Type} (a : α) (f : α → Except Error β) : Except.ok a >>= f = f a := rfl

@[simp] theorem error_bind {α β : Type} (e : Error) (f : α → Except Error β) : Except.error e >>= f = .error e := rfl

theorem bind_eq_ok {α β : Type} {x : Except Error α} {f : α → Except Error β} {b : β} :
    x >>= f = .ok b ↔ ∃ a, x = .ok a ∧ f a = .ok b := by
  cases x with
  | error e => simp
  | ok a => simp

theorem map_eq_ok {α β : Type} {x : Except Error α} {f : α → β} {b : β} :
    f <$> x = .ok b ↔ ∃ a, x = .ok a ∧ f a = b := by
  cases x with
  | error e => simp
  | ok a => simp

theorem bind_eq_error {α β : Type} {x : Except Error α} {f : α → Except Error β} {e : Error} :
    x >>= f = .error e ↔ x = .error e ∨ ∃ a, x = .ok a ∧ f a = .error e := by
  cases x with
  | error e' => simp
  | ok a => simp

variable [Curve]

theorem valueOf_list {op : Bytes} (hop : op ≠ Keyword.quote) (xs : List SExp) (env : SExp) :
    valueOf (.pair (.atom op) (.ofList xs)) env = valuesOf env xs >>= fun vs => applied op (.ofList vs) := by
  rw [valueOf_operator hop, SExp.toList_ofList, ok_bind]

theorem valuesOf_cons (env x : SExp) (xs : List SExp) :
    valuesOf env (x :: xs) = valuesOf env xs >>= fun vs => valueOf x env >>= fun v => .ok (v :: vs) := rfl

/-! ### Operators on the values of their operands -/

theorem applied_first (x : SExp) : applied Keyword.first (.ofList [x]) = x.first := by
  cases x <;> rfl

theorem applied_rest (x : SExp) : applied Keyword.rest (.ofList [x]) = x.rest := by
  cases x <;> rfl

theorem applied_choose (test yes no : SExp) :
    applied [Operator.choose.code] (.ofList [test, yes, no]) = .ok (if test.isNil then no else yes) := by
  cases test with
  | pair x y => rfl
  | atom b => cases b <;> rfl

/-! ### Forms -/

@[simp] theorem valueOf_formQuote (x env : SExp) : valueOf (Form.quote x) env = .ok x := valueOf_quote x env

@[simp] theorem valueOf_nil (env : SExp) : valueOf .nil env = .ok .nil := valueOf_path [] env

@[simp] theorem valueOf_formPath (n : Nat) (env : SExp) : valueOf (Form.path n) env = placeAt n env := by
  rw [Form.path, valueOf_path, Bytes.toNat_ofNat]

@[simp] theorem valueOf_formEnv (env : SExp) : valueOf Form.env env = .ok env := valueOf_formPath 1 env

@[simp] theorem valueOf_formApply (program arg env : SExp) :
    valueOf (Form.apply program arg) env =
      valueOf arg env >>= fun e => valueOf program env >>= fun p => valueOf p e := by
  show valueOf (.pair (.atom Keyword.apply) (.ofList [program, arg])) env = _
  rw [valueOf_list (by decide)]
  cases h : valueOf arg env <;> cases h' : valueOf program env <;> simp only [valuesOf, h, h'] <;> rfl

@[simp] theorem valueOf_formCons (x y env : SExp) :
    valueOf (Form.cons x y) env =
      valueOf y env >>= fun b => valueOf x env >>= fun a => .ok (.pair a b) := by
  show valueOf (.pair (.atom Keyword.cons) (.ofList [x, y])) env = _
  rw [valueOf_list (by decide)]
  cases h : valueOf y env <;> cases h' : valueOf x env <;> simp only [valuesOf, h, h'] <;> rfl

@[simp] theorem valueOf_formFirst (x env : SExp) :
    valueOf (Form.first x) env = valueOf x env >>= SExp.first := by
  show valueOf (.pair (.atom Keyword.first) (.ofList [x])) env = _
  rw [valueOf_list (by decide)]
  cases h : valueOf x env with
  | error e => simp only [valuesOf, h]; rfl
  | ok v =>
    simp only [valuesOf, h]
    exact applied_first v

@[simp] theorem valueOf_formRest (x env : SExp) :
    valueOf (Form.rest x) env = valueOf x env >>= SExp.rest := by
  show valueOf (.pair (.atom Keyword.rest) (.ofList [x])) env = _
  rw [valueOf_list (by decide)]
  cases h : valueOf x env with
  | error e => simp only [valuesOf, h]; rfl
  | ok v =>
    simp only [valuesOf, h]
    exact applied_rest v

@[simp] theorem valueOf_formChoose (test yes no env : SExp) :
    valueOf (Form.choose test yes no) env = valueOf no env >>= fun n => valueOf yes env >>= fun y =>
      valueOf test env >>= fun t => .ok (if t.isNil then n else y) := by
  show valueOf (.pair (.atom [Operator.choose.code]) (.ofList [test, yes, no])) env = _
  rw [valueOf_list (by decide)]
  cases h : valueOf no env <;> cases h' : valueOf yes env <;> cases h'' : valueOf test env <;>
    simp only [valuesOf, h, h', h''] <;> try rfl
  exact applied_choose _ _ _

end Clvm.Machine
