import Clvm.Proofs.Compiler.Effects
import Clvm.Proofs.Files

/-!
# Leaving symbol files

The programs whose values are named are run one after the other, in sessions that recorded reductions and symbol files lead
to from the first (`Leads`). Whether a symbol file can be left is the same in all of them. So if it matters to no program
which of these sessions it is run in (`Steady`), a symbol file is left whatever the order of the programs.
-/

namespace Clvm.Compiler
open Machine

/-! ### Sessions -/

/-- A session that comes from another by recording reductions and leaving symbol files. -/
inductive Leads (s : Session) : Session → Prop where
  | refl : Leads s s
  | record {t : Session} (ht : Leads s t) (r : Reduction) : Leads s { t with reductions := t.reductions.push r }
  | write {t : Session} {text : String} {store : Store} (ht : Leads s t)
      (hstore : t.store.write symbolFile text = .ok store) : Leads s { t with store }

theorem Leads.trans {s t u : Session} (hst : Leads s t) (htu : Leads t u) : Leads s u := by
  induction htu with
  | refl => exact hst
  | record _ r ih => exact ih.record r
  | write _ hstore ih => exact ih.write hstore

def leading : Effect where
  rel := Leads
  refl _ := .refl
  trans := Leads.trans
  record _ r _ := Leads.refl.record r
  write _ _ _ hstore := Leads.refl.write hstore

/-- Whether the symbol file is a file or can be made one. -/
def symbolsWritable (store : Store) : Bool :=
  (store.fileAt? [symbolFile]).isSome || !store.isDirectory [symbolFile]

theorem resolve_symbolFile (store : Store) :
    store.resolve symbolFile = (store.fileAt? [symbolFile]).elim
      (if store.isDirectory [symbolFile] then .directory [symbolFile] else .vacant [symbolFile]) (.file [symbolFile]) := by
  have hresolve : store.resolve symbolFile = store.follow [] [symbolFile] := by
    rw [Store.resolve, if_neg (by decide), if_neg (by decide)]
    rfl
  rw [hresolve, Store.follow, if_neg (by decide), if_neg (by decide), if_neg (by decide)]
  simp only [List.nil_append]
  cases hfile : store.fileAt? [symbolFile] with
  | some f => rfl
  | none => rfl

theorem write_symbolFile (store : Store) (text : String) :
    store.write symbolFile text =
      if symbolsWritable store then .ok { store.put [symbolFile] ⟨text, store.clock⟩ with clock := store.clock + 1 }
      else .error .isADirectory := by
  rw [Store.write, if_neg (by decide), resolve_symbolFile, symbolsWritable]
  cases hfile : store.fileAt? [symbolFile] with
  | some f => rfl
  | none =>
    cases hdirectory : store.isDirectory [symbolFile] <;> rfl

theorem writeFile_symbolFile (text : String) (s : Session) :
    Session.writeFile symbolFile text s =
      if symbolsWritable s.store then
        .ok () { s with store := { s.store.put [symbolFile] ⟨text, s.store.clock⟩ with clock := s.store.clock + 1 } }
      else .error .isADirectory s := by
  have hwrite : Session.writeFile symbolFile text s =
      (Action.ofExcept (s.store.write symbolFile text) >>= fun store => modify fun s => { s with store }) s := rfl
  rw [hwrite, write_symbolFile]
  split <;> rfl

theorem Leads.symbolsWritable_eq {s t : Session} (h : Leads s t) : symbolsWritable t.store = symbolsWritable s.store := by
  induction h with
  | refl => rfl
  | record _ r ih => exact ih
  | @write t text store _ hstore ih =>
    rw [write_symbolFile] at hstore
    split at hstore
    · rename_i hwritable
      cases hstore
      have hfile := Store.fileAt?_put t.store [symbolFile] [symbolFile] ⟨text, t.store.clock⟩
      rw [if_pos rfl] at hfile
      rw [← ih, hwritable, symbolsWritable, Bool.or_eq_true]
      exact .inl (Option.isSome_of_eq_some hfile)
    · cases hstore

/-- A symbol file can be left in all the sessions that one leads to, or in none. -/
theorem exists_writeFile {s t u : Session} (ht : Leads s t) (hu : Leads s u) {text : String} {t' : Session}
    (h : Session.writeFile symbolFile text t = .ok () t') (text' : String) :
    ∃ u', Session.writeFile symbolFile text' u = .ok () u' := by
  rw [writeFile_symbolFile] at h
  split at h
  · rename_i hwritable
    rw [ht.symbolsWritable_eq, ← hu.symbolsWritable_eq] at hwritable
    rw [writeFile_symbolFile, if_pos hwritable]
    exact ⟨_, rfl⟩
  · cases h

/-! ### Runs -/

/-- A program that gives a value in a session. -/
def Succeeds (run : Runner) (program : SExp) (s : Session) : Prop := ∃ r s', run program .nil s = .ok r s'

/-- A program to which it does not matter what reductions were recorded and what symbol files left. -/
def Steady (run : Runner) (s : Session) (program : SExp) : Prop :=
  ∀ t u, Leads s t → Leads s u → Succeeds run program t → Succeeds run program u

/-- A run enters its form, evaluates it and is then final at the earliest. -/
theorem four_le_of_runner [Curve] {settings : Settings} {levels : Nat} {form env : SExp} {s s' : Session}
    {r : Charged} (h : runner settings levels form env s = .ok r s') : 4 ≤ levels := by
  by_contra hlevels
  have hfew : levels = 0 ∨ levels = 1 ∨ levels = 2 ∨ levels = 3 := by omega
  rcases hfew with rfl | rfl | rfl | rfl
  · cases h
  · cases h
  · cases h
  · have hwatch : ¬ (Config.plain (operators settings (runner settings 2) 2)).watch form = true := Bool.false_ne_true
    rw [runner, evaluate, State.start, run_succ_of_not_final rfl, step_enter, if_neg hwatch] at h
    dsimp only at h
    rw [run_succ_of_not_final rfl, step_eval rfl] at h
    cases hdispatch : dispatch form env with
    | error e =>
      rw [hdispatch] at h
      cases h
    | ok d =>
      rw [hdispatch] at h
      cases h

theorem runner_quote [Curve] (settings : Settings) {levels : Nat} (h : 4 ≤ levels) (v env : SExp) (s : Session) :
    runner settings levels (Form.quote v) env s = .ok (20, v) s := by
  obtain ⟨n, rfl⟩ := Nat.exists_eq_add_of_le' h
  rfl

section Naming
variable {run : Runner} (hrun : ∀ form env, Keeps leading (run form env))
include hrun

omit hrun in
theorem nameValues_cons_eq_ok {e : Option Bytes × SExp} {programs : List (Option Bytes × SExp)}
    {table table' : SymbolNames} {s s' : Session} :
    nameValues run table (e :: programs) s = .ok table' s' ↔
      ∃ r s₁ b text, run e.2 .nil s = .ok r s₁ ∧ e.1 = some b ∧ Text.Utf8.decode? b = some text ∧
        nameValues run (table.put (Bytes.toHex r.2.treeHash) text) programs s₁ = .ok table' s' := by
  obtain ⟨name, program⟩ := e
  rw [nameValues]
  constructor
  · intro h
    obtain ⟨r, s₁, hr, h⟩ := Action.bind_eq_ok.mp h
    cases name with
    | none => cases h
    | some b =>
      cases htext : Text.Utf8.decode? b with
      | none =>
        simp only [htext] at h
        cases h
      | some text =>
        simp only [htext] at h
        exact ⟨r, s₁, b, text, hr, rfl, htext, h⟩
  · rintro ⟨r, s₁, b, text, hr, hname, htext, h⟩
    cases hname
    refine Action.bind_eq_ok.mpr ⟨r, s₁, hr, ?_⟩
    simp only [htext]
    exact h

theorem succeeds_of_nameValues {programs : List (Option Bytes × SExp)} {table table' : SymbolNames} {s s' : Session}
    (h : nameValues run table programs s = .ok table' s') :
    ∀ e ∈ programs, ∃ t, Leads s t ∧ Succeeds run e.2 t := by
  induction programs generalizing table s with
  | nil => exact nofun
  | cons e programs ih =>
    obtain ⟨r, s₁, b, text, hr, -, -, h⟩ := nameValues_cons_eq_ok.mp h
    intro e' he'
    rcases List.mem_cons.mp he' with rfl | he'
    · exact ⟨s, .refl, r, s₁, hr⟩
    · obtain ⟨t, ht, hsucceeds⟩ := ih h e' he'
      exact ⟨t, Leads.trans (hrun _ _ s r s₁ hr) ht, hsucceeds⟩

theorem exists_nameValues {programs : List (Option Bytes × SExp)} {s : Session}
    (hnames : ∀ e ∈ programs, ∃ b text, e.1 = some b ∧ Text.Utf8.decode? b = some text)
    (hruns : ∀ e ∈ programs, ∀ t, Leads s t → Succeeds run e.2 t) (table : SymbolNames) :
    ∃ table' s', nameValues run table programs s = .ok table' s' := by
  induction programs generalizing table s with
  | nil => exact ⟨table, s, rfl⟩
  | cons e programs ih =>
    obtain ⟨b, text, hname, htext⟩ := hnames e List.mem_cons_self
    obtain ⟨r, s₁, hr⟩ := hruns e List.mem_cons_self s .refl
    have hs₁ : Leads s s₁ := hrun _ _ s r s₁ hr
    obtain ⟨table', s', h⟩ := ih (fun e' he' => hnames e' (List.mem_cons_of_mem e he'))
      (fun e' he' t ht => hruns e' (List.mem_cons_of_mem e he') t (hs₁.trans ht)) (table.put (Bytes.toHex r.2.treeHash) text)
    exact ⟨table', s', nameValues_cons_eq_ok.mpr ⟨r, s₁, b, text, hr, hname, htext, h⟩⟩

/-- Where symbols are left for some programs, they are for others too, if these are among them or give a value anywhere. -/
theorem exists_writeSymbols {programs₁ programs₂ : List (Option Bytes × SExp)} {s s₁ : Session}
    (h : writeSymbols run programs₁ s = .ok () s₁) (hsteady : ∀ e ∈ programs₁, Steady run s e.2)
    (hnames : ∀ e ∈ programs₂, ∃ b text, e.1 = some b ∧ Text.Utf8.decode? b = some text)
    (hmore : ∀ e ∈ programs₂, e ∈ programs₁ ∨ ∀ t, Succeeds run e.2 t) :
    ∃ s₂, writeSymbols run programs₂ s = .ok () s₂ := by
  obtain ⟨table₁, t₁, hvalues₁, hwrite⟩ := Action.bind_eq_ok.mp h
  have ht₁ : Leads s t₁ := keeps_nameValues hrun _ _ _ _ _ hvalues₁
  obtain ⟨table₂, t₂, hvalues₂⟩ := exists_nameValues hrun hnames (s := s) (fun e he t ht => by
    rcases hmore e he with he | he
    · obtain ⟨u, hu, hsucceeds⟩ := succeeds_of_nameValues hrun hvalues₁ e he
      exact hsteady e he u t hu ht hsucceeds
    · exact he t) []
  have ht₂ : Leads s t₂ := keeps_nameValues hrun _ _ _ _ _ hvalues₂
  obtain ⟨s₂, hs₂⟩ := exists_writeFile ht₁ ht₂ hwrite _
  exact ⟨s₂, Action.bind_eq_ok.mpr ⟨table₂, t₂, hvalues₂, hs₂⟩⟩

end Naming

end Clvm.Compiler
