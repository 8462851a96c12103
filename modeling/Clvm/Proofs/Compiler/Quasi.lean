import Clvm.Proofs.Compiler.Core
import Clvm.Proofs.Compiler.Fuel
import Clvm.Proofs.Compiler.Places
import Clvm.Proofs.Compiler.Template

/-!
# Compiling quasi-quotations

One rule for each form of a template. The forms `qq` and `unquote` that are kept are put together by an expression with a
program inside, and this expression is compiled in turn, so what stands in them is compiled again. A program that is
compiled is not left as it is: a path in it becomes a constant.
-/

namespace Clvm.Compiler
open Machine

variable {scope : Scope} {w w₁ w₂ w' : Session}

/-! ### Lowering -/

/-- There is no quotation left to lower in a tree, nor where it is an item of a list. -/
def Lowered (t : SExp) : Prop := t ≠ .atom Word.quote ∧ lowerQuote t = .ok t

theorem lowered_atom {b : Bytes} (hb : b ≠ Word.quote) : Lowered (.atom b) := ⟨fun heq => hb (SExp.atom.inj heq), rfl⟩

theorem lowered_pair {x y : SExp} (hx : Lowered x) (hy : lowerQuote y = .ok y) : Lowered (.pair x y) :=
  ⟨by simp, lowerQuote_pair hx.1 hx.2 hy⟩

theorem lowered_of_not_mem {t : SExp} (h : Word.quote ∉ t.leaves) : Lowered t := by
  refine ⟨?_, lowerQuote_of_not_mem h⟩
  rintro rfl
  exact h (List.mem_singleton_self _)

theorem lowered_quote {t : SExp} (h : lowerQuote t = .ok t) : Lowered (Form.quote t) :=
  lowered_pair (lowered_atom (by decide)) h

theorem lowered_binary {op : Bytes} {x y : SExp} (hop : op ≠ Word.quote) (hx : Lowered x) (hy : Lowered y) :
    Lowered (.ofList [.atom op, x, y]) :=
  lowered_pair (lowered_atom hop) (lowered_pair hx (lowered_pair hy rfl).2).2

theorem lowered_cons {x y : SExp} (hx : Lowered x) (hy : Lowered y) : Lowered (Form.cons x y) :=
  lowered_binary (by decide) hx hy

theorem lowered_apply {x y : SExp} (hx : Lowered x) (hy : Lowered y) : Lowered (Form.apply x y) :=
  lowered_binary (by decide) hx hy

/-! ### Rules for expressions -/

theorem compiles_all (w : Session) : Compiles scope (.atom Word.all) w Path.top.toSExp w :=
  compiles_of_compile (show compile scope 1 (.atom Word.all) w = _ from rfl)

theorem compile_word {b : Bytes} (hall : b ≠ Word.all) (hnone : lookupSymbol b scope.symbols = .ok none) (fuel : Nat)
    (w : Session) : compile scope (fuel + 1) (.atom b) w = .ok (Form.quote (.atom b)) w := by
  show Action.ofExcept (compileAtom scope b) w = _
  simp only [compileAtom, if_neg hall, hnone]
  rfl

theorem compiles_word {b : Bytes} (hall : b ≠ Word.all) (hnone : lookupSymbol b scope.symbols = .ok none) (w : Session) :
    Compiles scope (.atom b) w (Form.quote (.atom b)) w :=
  compiles_of_compile (compile_word hall hnone 0 w)

/-- An operator with two operands is compiled by them. -/
theorem compile_binary {op : Bytes} {x y p q : SExp} {fuel : Nat} (hkept : isKept op = true) (hquote : op ≠ Keyword.quote)
    (hlow : Lowered (.ofList [.atom op, x, y])) (hnone : lookupMacro op scope.macros = .ok none)
    (hx : compile scope fuel x w = .ok p w₁) (hy : compile scope fuel y w₁ = .ok q w₂) :
    compile scope (fuel + 1) (.ofList [.atom op, x, y]) w = .ok (.ofList [.atom op, p, q]) w₂ := by
  have hwords : op ∉ [Word.quasi, Word.macros, Word.symbols, Word.lambda, Word.mod] := by
    intro hmem
    rw [isKept_false hmem] at hkept
    cases hkept
  have hargs : [x, y].mapM (compile scope fuel) w = .ok [p, q] w₂ := by
    simp only [List.mapM_cons, List.mapM_nil, bind, EStateM.bind, hx, hy]
    rfl
  have hlow' : lowerQuote (.pair (.atom op) (.ofList [x, y])) = .ok (.pair (.atom op) (.ofList [x, y])) := hlow.2
  show compile scope (fuel + 1) (.pair (.atom op) (.ofList [x, y])) w = _
  rw [compile_operator hlow' hnone hwords, if_neg hquote, SExp.items_ofList]
  simp only [bind, EStateM.bind, hargs, SExp.checkProper, SExp.terminator_ofList, hkept, ↓reduceIte]
  rfl

theorem compiles_binary {op : Bytes} {x y p q : SExp} (hkept : isKept op = true) (hquote : op ≠ Keyword.quote)
    (hlow : Lowered (.ofList [.atom op, x, y])) (hnone : lookupMacro op scope.macros = .ok none)
    (hx : Compiles scope x w p w₁) (hy : Compiles scope y w₁ q w₂) :
    Compiles scope (.ofList [.atom op, x, y]) w (.ofList [.atom op, p, q]) w₂ := by
  obtain ⟨n, hn⟩ := hx
  obtain ⟨k, hk⟩ := hy
  exact compiles_of_compile
    (compile_binary hkept hquote hlow hnone (hn _ (Nat.le_max_left n k)) (hk _ (Nat.le_max_right n k)))

/-! ### Rules for templates -/

theorem first_ofList (x : SExp) (xs : List SExp) : (SExp.ofList (x :: xs)).first = .ok x := rfl

/-- A quasi-quotation compiles to a program that runs what its template compiles to. -/
theorem compiles_quasi {t post : SExp} (hlow : Word.quote ∉ t.leaves)
    (hnone : lookupMacro Word.quasi scope.macros = .ok none) (h : CompilesQuasi scope 1 t w post w') :
    Compiles scope (.ofList [.atom Word.quasi, t]) w (Form.apply (Form.quote post) Path.top.toSExp) w' := by
  obtain ⟨n, hn⟩ := h
  refine ⟨n + 1, fun fuel hfuel => ?_⟩
  obtain ⟨fuel, rfl⟩ := Nat.exists_eq_add_of_le' (Nat.le_of_add_left_le hfuel)
  have hform : Lowered (.pair (.atom Word.quasi) (.ofList [t])) :=
    lowered_pair (lowered_atom (by decide)) (lowered_pair (lowered_of_not_mem hlow) rfl).2
  show compile scope (fuel + 1) (.pair (.atom Word.quasi) (.ofList [t])) w = _
  rw [compile, hform.2]
  simp only [Action.lift_ok_bind, hnone, ↓reduceIte]
  exact Action.bind_eq_ok.mpr ⟨post, w', hn fuel (by omega), rfl⟩

theorem compilesQuasi_leaf (level : Int) (b : Bytes) (w : Session) :
    CompilesQuasi scope level (.atom b) w (Form.quote (.atom b)) w := by
  refine ⟨1, fun fuel hfuel => ?_⟩
  obtain ⟨fuel, rfl⟩ := Nat.exists_eq_add_of_le' hfuel
  rfl

theorem compilesQuasi_pair {level : Int} {x y p q : SExp} (hquasi : x ≠ .atom Word.quasi)
    (hunquote : x ≠ .atom Word.unquote) (hx : Compiles scope (.ofList [.atom Word.quasi, x]) w p w₁)
    (hy : Compiles scope (.ofList [.atom Word.quasi, y]) w₁ q w₂) :
    CompilesQuasi scope level (.pair x y) w (Form.cons p q) w₂ := by
  obtain ⟨n, hn⟩ := hx
  obtain ⟨k, hk⟩ := hy
  refine ⟨max n k + 1, fun fuel hfuel => ?_⟩
  obtain ⟨fuel, rfl⟩ := Nat.exists_eq_add_of_le' (Nat.le_of_add_left_le hfuel)
  have hparts : (compile scope fuel (.ofList [.atom Word.quasi, x]) >>= fun first =>
      compile scope fuel (.ofList [.atom Word.quasi, y]) >>= fun rest => pure (Form.cons first rest)) w =
      .ok (Form.cons p q) w₂ :=
    Action.bind_eq_ok.mpr ⟨p, w₁, hn fuel (by omega), Action.bind_eq_ok.mpr ⟨q, w₂, hk fuel (by omega), rfl⟩⟩
  rw [compileQuasi, first_ofList, Action.lift_ok_bind]
  cases x with
  | pair a b => exact hparts
  | atom op =>
    have hquasi' : op ≠ Word.quasi := fun heq => hquasi (congrArg _ heq)
    have hunquote' : op ≠ Word.unquote := fun heq => hunquote (congrArg _ heq)
    simp only [if_neg hquasi', if_neg hunquote']
    exact hparts

theorem compilesQuasi_hole {x p : SExp} (h : Compiles scope x w p w') :
    CompilesQuasi scope 1 (.ofList [.atom Word.unquote, x]) w p w' := by
  obtain ⟨n, hn⟩ := h
  refine ⟨n + 1, fun fuel hfuel => ?_⟩
  obtain ⟨fuel, rfl⟩ := Nat.exists_eq_add_of_le' (Nat.le_of_add_left_le hfuel)
  exact hn fuel (by omega)

/-- A form that is kept is put together by an expression, which is compiled in turn. -/
theorem compilesQuasi_form {op : Bytes} {level inner : Int} {x sub post : SExp}
    (hop : op = Word.quasi ∧ inner = level + 1 ∨ op = Word.unquote ∧ level ≠ 1 ∧ inner = level - 1)
    (hx : CompilesQuasi scope inner x w sub w₁) (hpost : Compiles scope (rebuild op sub) w₁ post w₂) :
    CompilesQuasi scope level (.ofList [.atom op, x]) w post w₂ := by
  obtain ⟨n, hn⟩ := hx
  obtain ⟨k, hk⟩ := hpost
  refine ⟨max n k + 1, fun fuel hfuel => ?_⟩
  obtain ⟨fuel, rfl⟩ := Nat.exists_eq_add_of_le' (Nat.le_of_add_left_le hfuel)
  have hparts : (compileQuasi scope fuel inner (.ofList [x]) >>= fun sub => compile scope fuel (rebuild op sub)) w =
      .ok post w₂ := Action.bind_eq_ok.mpr ⟨sub, w₁, hn fuel (by omega), hk fuel (by omega)⟩
  rcases hop with ⟨rfl, rfl⟩ | ⟨rfl, hlevel, rfl⟩
  · exact hparts
  · have hwords : Word.unquote ≠ Word.quasi := by decide
    show compileQuasi scope (fuel + 1) level (.ofList [.pair (.atom Word.unquote) (.ofList [x])]) w = _
    rw [compileQuasi, first_ofList, Action.lift_ok_bind]
    simp only [if_neg hwords, ↓reduceIte, if_neg hlevel]
    exact hparts

/-! ### Compiling programs again -/

/-- The tables give no meaning to the words of which the compiler makes the programs of templates. -/
structure Clear (scope : Scope) : Prop where
  macros : ∀ op, op = Keyword.quote ∨ op = Keyword.apply ∨ op = Keyword.cons → lookupMacro op scope.macros = .ok none
  symbols : ∀ b, b = Word.quasi ∨ b = Word.unquote ∨ b = [1] → lookupSymbol b scope.symbols = .ok none

/-- Compiles a program as if it were an expression, several times. -/
inductive Recompiles (scope : Scope) : Nat → SExp → Session → SExp → Session → Prop where
  | done (p : SExp) (w : Session) : Recompiles scope 0 p w p w
  | again {k : Nat} {p q last : SExp} {w w₁ w' : Session} (hlow : Lowered p) (h : Compiles scope p w q w₁)
      (hlast : Recompiles scope k q w₁ last w') : Recompiles scope (k + 1) p w last w'

/-- The program that makes the list of a word and the value of a program. -/
def rebuilt (op : Bytes) (p : SExp) : SExp := Form.cons (Form.quote (.atom op)) (Form.cons p (Form.quote .nil))

/-- The program that runs both parts of a template in an environment. -/
def joined (env p q : SExp) : SExp := Form.cons (Form.apply (Form.quote p) env) (Form.apply (Form.quote q) env)

theorem recompiles_self {p : SExp} (hlow : Lowered p) (h : ∀ w, Compiles scope p w p w) (k : Nat) (w : Session) :
    Recompiles scope k p w p w := by
  induction k with
  | zero => exact .done p w
  | succ k ih => exact .again hlow (h w) ih

theorem lowered_rebuilt {p : SExp} (op : Bytes) (hlow : Lowered p) : Lowered (rebuilt op p) :=
  lowered_cons (lowered_quote rfl) (lowered_cons hlow (lowered_quote rfl))

theorem lowered_joined {env p q : SExp} (henv : Lowered env) (hp : Lowered p) (hq : Lowered q) :
    Lowered (joined env p q) :=
  lowered_cons (lowered_apply (lowered_quote hp.2) henv) (lowered_apply (lowered_quote hq.2) henv)

section Clear
variable (hclear : Clear scope)
include hclear

theorem compiles_cons {x y p q : SExp} (hlx : Lowered x) (hly : Lowered y) (hx : Compiles scope x w p w₁)
    (hy : Compiles scope y w₁ q w₂) : Compiles scope (Form.cons x y) w (Form.cons p q) w₂ :=
  compiles_binary (by decide) (by decide) (lowered_cons hlx hly) (hclear.macros _ (.inr (.inr rfl))) hx hy

theorem compiles_quote {t : SExp} (hlow : lowerQuote t = .ok t) (w : Session) :
    Compiles scope (Form.quote t) w (Form.quote t) w := by
  refine ⟨1, fun fuel hfuel => ?_⟩
  obtain ⟨fuel, rfl⟩ := Nat.exists_eq_add_of_le' hfuel
  rw [Form.quote, compile_operator (lowered_quote hlow).2 (hclear.macros _ (.inl rfl)) (by decide), if_pos rfl]
  rfl

/-- The expression for a form that is kept. -/
theorem compiles_rebuild {op : Bytes} {p q : SExp} (hop : op = Word.quasi ∨ op = Word.unquote) (hlow : Lowered p)
    (h : Compiles scope p w q w') : Compiles scope (rebuild op p) w (rebuilt op q) w' := by
  have hword : op ≠ Word.all ∧ op ≠ Word.quote := by rcases hop with rfl | rfl <;> decide
  have hsymbol : lookupSymbol op scope.symbols = .ok none := hclear.symbols op (hop.imp_right .inl)
  have hnil : Lowered (Form.quote .nil) := lowered_quote rfl
  refine compiles_cons hclear (lowered_atom hword.2) (lowered_cons hlow hnil) (compiles_word hword.1 hsymbol w) ?_
  exact compiles_cons hclear hlow hnil h (compiles_quote hclear rfl w')

theorem compiles_rebuilt {p q : SExp} (op : Bytes) (hlow : Lowered p) (h : Compiles scope p w q w') :
    Compiles scope (rebuilt op p) w (rebuilt op q) w' := by
  have hnil : Lowered (Form.quote .nil) := lowered_quote rfl
  refine compiles_cons hclear (lowered_quote rfl) (lowered_cons hlow hnil) (compiles_quote hclear rfl w) ?_
  exact compiles_cons hclear hlow hnil h (compiles_quote hclear rfl w')

theorem recompiles_rebuilt {k : Nat} {p last : SExp} (op : Bytes) (h : Recompiles scope k p w last w') :
    Recompiles scope k (rebuilt op p) w (rebuilt op last) w' := by
  induction h with
  | done p w => exact .done _ w
  | again hlow h _ ih => exact .again (lowered_rebuilt op hlow) (compiles_rebuilt hclear op hlow h) ih

/-- A form that is kept compiles what it keeps once more than it is compiled itself. -/
theorem recompiles_rebuild {op : Bytes} {k : Nat} {p last : SExp} (hop : op = Word.quasi ∨ op = Word.unquote)
    (h : Recompiles scope (k + 1) p w last w') :
    ∃ post w₁, Compiles scope (rebuild op p) w post w₁ ∧ Recompiles scope k post w₁ (rebuilt op last) w' := by
  cases h with
  | again hlow h hlast => exact ⟨_, _, compiles_rebuild hclear hop hlow h, recompiles_rebuilt hclear op hlast⟩

theorem compiles_joined {env env' p q : SExp} (henv : Lowered env) (h : ∀ w, Compiles scope env w env' w)
    (hp : Lowered p) (hq : Lowered q) (w : Session) : Compiles scope (joined env p q) w (joined env' p q) w := by
  have hrun : ∀ r, Lowered r → Compiles scope (Form.apply (Form.quote r) env) w (Form.apply (Form.quote r) env') w :=
    fun r hr => compiles_binary (by decide) (by decide) (lowered_apply (lowered_quote hr.2) henv)
      (hclear.macros _ (.inr (.inl rfl))) (compiles_quote hclear hr.2 w) (h w)
  have hlow : ∀ r, Lowered r → Lowered (Form.apply (Form.quote r) env) := fun r hr =>
    lowered_apply (lowered_quote hr.2) henv
  exact compiles_cons hclear (hlow p hp) (hlow q hq) (hrun p hp) (hrun q hq)

/-- The path to the whole environment becomes a constant when it is compiled again. -/
theorem compiles_top (w : Session) : Compiles scope Path.top.toSExp w (Form.quote .one) w :=
  compiles_word (by decide) (hclear.symbols [1] (.inr (.inr rfl))) w

theorem recompiles_joined {p q : SExp} (hp : Lowered p) (hq : Lowered q) (k : Nat) (w : Session) :
    Recompiles scope (k + 1) (joined Path.top.toSExp p q) w (joined (Form.quote .one) p q) w := by
  have hone : Lowered (Form.quote .one) := lowered_quote rfl
  have hself := compiles_joined hclear hone (compiles_quote hclear rfl) hp hq
  exact .again (lowered_joined (lowered_atom (by decide)) hp hq)
    (compiles_joined hclear (lowered_atom (by decide)) (compiles_top hclear) hp hq w)
    (recompiles_self (lowered_joined hone hp hq) hself k w)

end Clear

/-! ### Values of the programs of templates -/

section Values
variable {σ : Type} {ops : Operators σ}

theorem value_formQuote (t env : SExp) : value ops (Form.quote t) env = pure t := value_quote t env

theorem value_apply (program arg env : SExp) :
    value ops (Form.apply program arg) env =
      value ops arg env >>= fun e => value ops program env >>= fun p => value ops p e := by
  show value ops (.pair (.atom Keyword.apply) (.ofList [program, arg])) env = _
  rw [value_list (by decide)]
  simp only [values, bind_assoc, pure_bind]
  rfl

theorem value_run {arg env e : SExp} (harg : value ops arg env = pure e) (p : SExp) :
    value ops (Form.apply (Form.quote p) arg) env = value ops p e := by
  rw [value_apply, harg, pure_bind, value_formQuote, pure_bind]

theorem value_rebuilt [Curve] (hops : PairsValues ops) (op : Bytes) (p env : SExp) :
    value ops (rebuilt op p) env = value ops p env >>= fun v => pure (.ofList [.atom op, v]) := by
  simp only [rebuilt, value_cons hops, value_formQuote, pure_bind, bind_assoc]
  rfl

theorem value_joined [Curve] (hops : PairsValues ops) {arg env e : SExp} (harg : value ops arg env = pure e)
    (p q : SExp) :
    value ops (joined arg p q) env = value ops q e >>= fun b => value ops p e >>= fun a => pure (.pair a b) := by
  rw [joined, value_cons hops, value_run harg, value_run harg]

end Values

end Clvm.Compiler
