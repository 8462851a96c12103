import Clvm.Compiler.Basic
import Clvm.Proofs.Action
import Clvm.Proofs.Compiler.Lowering
import Clvm.Proofs.Machine.Meaning
import Mathlib.Tactic.Choose

/-!
# The core language

Atoms, quotations and operators applied to expressions, without macros. `denote` says what an expression of the
core language means in an environment, without compiling it. Compiling never fails on the core language, and the
compiled program comes to what the expression means, with whatever operators the machine knows.
-/

namespace Clvm.Compiler
open Machine

variable {σ : Type}

/-- The table of some entries, in their order. -/
def tableOf (entries : List (SExp × SExp)) : SExp := .ofList (entries.map fun e => .ofList [e.1, e.2])

/-- Expressions of the core language. None of the operators is the name of a macro, nor is quotation where it
is used. -/
inductive IsCore (macroNames : List SExp) : SExp → Prop where
  | atom (b : Bytes) : IsCore macroNames (.atom b)
  | quotation (hname : .atom Keyword.quote ∉ macroNames) (x : SExp) :
      IsCore macroNames (.pair (.atom Keyword.quote) x)
  | call {op : Bytes} (hop : isKept op = true) (hquote : op ≠ Keyword.quote) (hname : .atom op ∉ macroNames)
      {xs : List SExp} (hxs : ∀ x ∈ xs, IsCore macroNames x) : IsCore macroNames (.pair (.atom op) (.ofList xs))

mutual

/-- What an expression means in an environment: `@` is the environment, a symbol is what its first program
comes to there, any other atom is itself, and an operator is applied to what its operands mean. -/
def denote (ops : Operators σ) (symbols : List (SExp × SExp)) (env : SExp) : SExp → Computation σ SExp
  | .atom b =>
    if b = Word.all then pure env
    else
      match symbols.lookup (.atom b) with
      | some program => value ops program env
      | none => pure (.atom b)
  | .pair (.atom op) operands =>
    if op = Keyword.quote then pure operands
    else do
      let args ← denoteAll ops symbols env operands
      applyValue ops op args
  | .pair (.pair x y) operands => throw (.source (.unknownOperator (.pair (.pair x y) operands)))

/-- The list of what operands mean, from the last to the first. -/
def denoteAll (ops : Operators σ) (symbols : List (SExp × SExp)) (env : SExp) : SExp → Computation σ SExp
  | .atom b => pure (.atom b)
  | .pair x more => do
    let args ← denoteAll ops symbols env more
    let v ← denote ops symbols env x
    return .pair v args

end

/-! ### Tables -/

theorem lookupMacro_tableOf {name : Bytes} {entries : List (SExp × SExp)}
    (h : .atom name ∉ entries.map (·.1)) : lookupMacro name (tableOf entries) = .ok none := by
  induction entries with
  | nil => rfl
  | cons entry entries ih =>
    simp only [List.map_cons, List.mem_cons, not_or] at h
    show (if entry.1 = .atom name then _ else lookupMacro name (tableOf entries)) = _
    rw [if_neg (Ne.symm h.1)]
    exact ih h.2

theorem lookupSymbol_tableOf (name : Bytes) (entries : List (SExp × SExp)) :
    lookupSymbol name (tableOf entries) = .ok (entries.lookup (.atom name)) := by
  induction entries with
  | nil => rfl
  | cons entry entries ih =>
    show (if entry.1 = .atom name then Except.ok (some entry.2) else lookupSymbol name (tableOf entries)) = _
    obtain ⟨symbol, v⟩ := entry
    by_cases hname : symbol = .atom name
    · subst hname
      simp
    · have hbeq : (SExp.atom name == symbol) = false := beq_false_of_ne (Ne.symm hname)
      rw [if_neg hname, ih, List.lookup_cons, hbeq]

/-! ### Parts of a list -/

theorem mem_leaves_of_mem {b : Bytes} {x : SExp} {xs : List SExp} (hx : x ∈ xs) (hb : b ∈ x.leaves) :
    b ∈ (SExp.ofList xs).leaves := by
  induction xs with
  | nil => cases hx
  | cons y ys ih =>
    show b ∈ y.leaves ++ (SExp.ofList ys).leaves
    rcases List.mem_cons.mp hx with rfl | hx
    · exact List.mem_append_left _ hb
    · exact List.mem_append_right _ (ih hx)

theorem size_lt_of_mem {x : SExp} {xs : List SExp} (hx : x ∈ xs) : x.size < (SExp.ofList xs).size := by
  induction xs with
  | nil => cases hx
  | cons y ys ih =>
    show x.size < y.size + (SExp.ofList ys).size + 1
    rcases List.mem_cons.mp hx with rfl | hx
    · omega
    · have := ih hx
      omega

/-! ### Compiling -/

theorem isKept_false {op : Bytes} (h : op ∈ [Word.quasi, Word.macros, Word.symbols, Word.lambda, Word.mod]) :
    isKept op = false := by
  simp only [List.mem_cons, List.not_mem_nil, or_false] at h
  rcases h with rfl | rfl | rfl | rfl | rfl <;> decide

section Compile
variable {macros symbols : List (SExp × SExp)} {compileModule : SExp → Action Session SExp}

/-- A program does what an expression means: it is what the expression compiles to, with enough fuel, and it
comes to the expression's meaning in every environment, whatever operators the machine knows. -/
structure Realizes (macros symbols : List (SExp × SExp)) (compileModule : SExp → Action Session SExp)
    (source program : SExp) : Prop where
  compiled : ∀ fuel, source.size ≤ fuel → ∀ s,
    compile ⟨tableOf macros, tableOf symbols, compileModule⟩ fuel source s = .ok program s
  meaning : ∀ {σ : Type} (ops : Operators σ) (env : SExp), value ops program env = denote ops symbols env source

theorem value_top (ops : Operators σ) (env : SExp) : value ops Path.top.toSExp env = pure env :=
  value_atom [1] env

theorem realizes_atom (b : Bytes) :
    ∃ program, Realizes macros symbols compileModule (.atom b) program := by
  have hcompile : ∀ program, compileAtom ⟨tableOf macros, tableOf symbols, compileModule⟩ b = .ok program →
      ∀ fuel, (SExp.atom b).size ≤ fuel → ∀ s,
        compile ⟨tableOf macros, tableOf symbols, compileModule⟩ fuel (.atom b) s = .ok program s := by
    intro program hp fuel hfuel s
    obtain ⟨fuel, rfl⟩ : ∃ n, fuel = n + 1 := ⟨fuel - 1, by simp only [SExp.size] at hfuel; omega⟩
    show Action.ofExcept (compileAtom _ b) s = _
    rw [hp]
    rfl
  by_cases hall : b = Word.all
  · refine ⟨Path.top.toSExp, hcompile _ (by simp [compileAtom, hall, pure, Except.pure]), fun ops env => ?_⟩
    rw [value_top, denote, if_pos hall]
  · cases hs : symbols.lookup (.atom b) with
    | some program =>
      refine ⟨program, hcompile _ ?_, fun ops env => ?_⟩
      · simp only [compileAtom, if_neg hall, lookupSymbol_tableOf, hs]
        rfl
      · rw [denote, if_neg hall, hs]
    | none =>
      refine ⟨Form.quote (.atom b), hcompile _ ?_, fun ops env => ?_⟩
      · simp only [compileAtom, if_neg hall, lookupSymbol_tableOf, hs]
        rfl
      · rw [denote, if_neg hall, hs]
        exact value_quote _ env

/-- An operator that is no macro and no word of the compiler is compiled by its operands. -/
theorem compile_operator {scope : Scope} {op : Bytes} {args : SExp}
    (hlow : lowerQuote (.pair (.atom op) args) = .ok (.pair (.atom op) args))
    (hnone : lookupMacro op scope.macros = .ok none)
    (hop : op ∉ [Word.quasi, Word.macros, Word.symbols, Word.lambda, Word.mod]) (fuel : Nat) :
    compile scope (fuel + 1) (.pair (.atom op) args) =
      if op = Keyword.quote then pure (.pair (.atom op) args)
      else (do
        let compiled ← args.items.mapM (compile scope fuel)
        Action.ofExcept args.checkProper
        if isKept op then return .pair (.atom op) (.ofList compiled)
        else
          match ← Action.ofExcept (lookupCallee op scope.symbols) with
          | some .operator => return .pair (.atom op) (.ofList compiled)
          | some (.function code) => return compileCall scope code args
          | none => throw (.source (.unknownOperator (.pair (.atom op) args)))) := by
  simp only [List.mem_cons, List.not_mem_nil, or_false, not_or] at hop
  obtain ⟨h1, h2, h3, h4, h5⟩ := hop
  rw [compile, hlow]
  simp only [Action.lift_ok_bind, hnone, if_neg h1, if_neg h2, if_neg h3, h4, h5, or_self, ↓reduceIte]
  rfl

theorem realizes_quotation (hname : .atom Keyword.quote ∉ macros.map (·.1)) {x : SExp}
    (hlow : Word.quote ∉ (SExp.pair (.atom Keyword.quote) x).leaves) :
    Realizes macros symbols compileModule (.pair (.atom Keyword.quote) x) (.pair (.atom Keyword.quote) x) where
  compiled fuel hfuel s := by
    obtain ⟨fuel, rfl⟩ : ∃ n, fuel = n + 1 := ⟨fuel - 1, by simp only [SExp.size] at hfuel; omega⟩
    rw [compile_operator (lowerQuote_of_not_mem hlow) (lookupMacro_tableOf hname) (by decide), if_pos rfl]
    rfl
  meaning ops env := by rw [value_quote, denote, if_pos rfl]

theorem denoteAll_ofList (ops : Operators σ) (env : SExp) (xs : List SExp) (programs : SExp → SExp)
    (h : ∀ x ∈ xs, value ops (programs x) env = denote ops symbols env x) :
    denoteAll ops symbols env (.ofList xs) = SExp.ofList <$> values ops env (xs.map programs) := by
  induction xs with
  | nil => rfl
  | cons x xs ih =>
    have hx := h x List.mem_cons_self
    have hxs := ih fun y hy => h y (List.mem_cons_of_mem x hy)
    show denoteAll ops symbols env (.pair x (.ofList xs)) = _
    rw [denoteAll, hxs, List.map_cons, values, ← hx]
    simp only [map_eq_pure_bind, bind_assoc, pure_bind]
    rfl

theorem realizes_call {op : Bytes} (hop : isKept op = true) (hquote : op ≠ Keyword.quote)
    (hname : .atom op ∉ macros.map (·.1)) {xs : List SExp}
    (hlow : Word.quote ∉ (SExp.pair (.atom op) (.ofList xs)).leaves) (programs : SExp → SExp)
    (hxs : ∀ x ∈ xs, Realizes macros symbols compileModule x (programs x)) :
    Realizes macros symbols compileModule (.pair (.atom op) (.ofList xs))
      (.pair (.atom op) (.ofList (xs.map programs))) where
  compiled fuel hfuel s := by
    obtain ⟨fuel, rfl⟩ : ∃ n, fuel = n + 1 := ⟨fuel - 1, by simp only [SExp.size] at hfuel; omega⟩
    have hwords : op ∉ [Word.quasi, Word.macros, Word.symbols, Word.lambda, Word.mod] := fun hmem => by
      rw [isKept_false hmem] at hop
      cases hop
    have hall : ∀ x ∈ xs, compile ⟨tableOf macros, tableOf symbols, compileModule⟩ fuel x s = .ok (programs x) s :=
      fun x hx => (hxs x hx).compiled fuel (by
        have := size_lt_of_mem hx
        simp only [SExp.size] at hfuel
        omega) s
    rw [compile_operator (lowerQuote_of_not_mem hlow) (lookupMacro_tableOf hname) hwords, if_neg hquote, SExp.items_ofList]
    simp only [bind, EStateM.bind, Action.mapM_eq_ok_of_forall hall, SExp.checkProper, SExp.terminator_ofList, hop,
      ↓reduceIte]
    rfl
  meaning ops env := by
    rw [value_list hquote, denote, if_neg hquote,
      denoteAll_ofList ops env xs programs fun x hx => (hxs x hx).meaning ops env]
    simp only [map_eq_pure_bind, bind_assoc, pure_bind]

theorem exists_realizes {source : SExp} (hcore : IsCore (macros.map (·.1)) source)
    (hlow : Word.quote ∉ source.leaves) : ∃ program, Realizes macros symbols compileModule source program := by
  induction hcore with
  | atom b => exact realizes_atom b
  | quotation hname x => exact ⟨_, realizes_quotation hname hlow⟩
  | @call op hop hquote hname xs _ ih =>
    have hlow' : ∀ x ∈ xs, Word.quote ∉ x.leaves := fun x hx hmem =>
      hlow (List.mem_append_right _ (mem_leaves_of_mem hx hmem))
    have hall : ∀ x, ∃ program, x ∈ xs → Realizes macros symbols compileModule x program := fun x => by
      by_cases hx : x ∈ xs
      · obtain ⟨program, hprogram⟩ := ih x hx (hlow' x hx)
        exact ⟨program, fun _ => hprogram⟩
      · exact ⟨x, fun h => absurd h hx⟩
    choose programs hprograms using hall
    exact ⟨_, realizes_call hop hquote hname hlow programs hprograms⟩

end Compile

/-- Compiling an expression of the core language succeeds, and the program comes to what the expression means:
the same value, the same failure or no end, in every environment and with whatever operators the machine knows. -/
theorem compile_core_denotes (macros symbols : List (SExp × SExp)) (compileModule : SExp → Action Session SExp)
    {source : SExp} (hcore : IsCore (macros.map (·.1)) source) (hlow : Word.quote ∉ source.leaves) :
    ∃ program,
      (∀ fuel, source.size ≤ fuel → ∀ s,
        compile ⟨tableOf macros, tableOf symbols, compileModule⟩ fuel source s = .ok program s) ∧
      ∀ {σ : Type} (ops : Operators σ) (env : SExp), value ops program env = denote ops symbols env source := by
  obtain ⟨program, hprogram⟩ := exists_realizes hcore hlow
  exact ⟨program, hprogram.compiled, hprogram.meaning⟩

/-- The sum `(+ @ n (q . qq))` in a scope with a macro `list` and two symbols `n`. -/
theorem compile_core_denotes_sum :
    let macros := [(SExp.atom Word.list, SExp.atom [1])]
    let symbols := [(SExp.atom [110], SExp.atom [5]), (SExp.atom [110], SExp.atom [2])]
    let source := SExp.ofList
      [.atom [16], .atom Word.all, .atom [110], .pair (.atom Keyword.quote) (.atom Word.quasi)]
    IsCore (macros.map (·.1)) source ∧ Word.quote ∉ source.leaves ∧
    ∃ program,
      (∀ fuel, source.size ≤ fuel → ∀ s,
        compile ⟨tableOf macros, tableOf symbols, fun _ => throw .outOfFuel⟩ fuel source s = .ok program s) ∧
      ∀ {σ : Type} (ops : Operators σ) (env : SExp), value ops program env = denote ops symbols env source := by
  intro macros symbols source
  have hcore : IsCore (macros.map (·.1)) source := by
    refine .call (by decide) (by decide) (by decide) fun x hx => ?_
    simp only [List.mem_cons, List.not_mem_nil, or_false] at hx
    rcases hx with rfl | rfl | rfl
    · exact .atom _
    · exact .atom _
    · exact .quotation (by decide) _
  have hlow : Word.quote ∉ source.leaves := by decide
  exact ⟨hcore, hlow, compile_core_denotes macros symbols _ hcore hlow⟩

end Clvm.Compiler
