import Clvm.Proofs.Compiler.Pruning
import Clvm.Proofs.Compiler.Symbols

/-!
# The order of declarations

A module is compiled in two steps: its plan is made, which is the names that are used with their programs and the program of
the main expression, and the plan is linked. Links are by name and the names come in their own order. So two modules whose
functions and constants are the same but for their order, and for some that are not reached, have plans of the same source.

The programs of a plan are run in the order of declarations, for their symbols. One that reads the symbol file which another
leaves runs in one order and fails in the other.
-/

namespace Clvm.Compiler

/-! ### Plans -/

/-- What a module is linked from. -/
structure Plan where
  names : List Bytes
  main : SExp
  programs : Named

/-- The plan of what a module declares, for the names that are used. -/
def planOf (macroProgram : SExp) (d : Declarations) (names : List Bytes) : Action Session Plan := do
  let root := if names.isEmpty then Path.top else Path.right
  let symbols := placesOf .left (buildTree (names.map .atom))
  let compiled ← d.functions.mapM fun e => do return (e.1, ← functionProgram macroProgram root symbols e.2)
  let used : Named := compiled.filter fun e => names.any (e.1 = some ·)
  return ⟨names, (compiled.lookup (some mainName)).getD .nil, d.constants.foldl (fun table e => table.put e.1 e.2) used⟩

def plan (run : Runner) (fuel : Nat) (macros source : SExp) : Action Session Plan := do
  let d ← collect run fuel source
  let macroProgram ← macroTableProgram run fuel macros d.macros
  let names ← usedNames d.functions d.constants d.macros
  planOf macroProgram d names

def Plan.source (p : Plan) : List Char :=
  if p.names.isEmpty then linkedSource p.main none
  else linkedSource p.main (some (buildTreeProgram (p.names.map fun n => (p.programs.lookup (some n)).getD .nil)))

/-- Links a plan, and leaves its symbols. -/
def Plan.link (run : Runner) (p : Plan) : Action Session SExp :=
  if p.names.isEmpty then SExp.ofSource p.source
  else do
    writeSymbols run p.programs
    SExp.ofSource p.source

theorem compileModule_eq_link (run : Runner) (fuel : Nat) (macros source : SExp) :
    compileModule run fuel macros source = plan run fuel macros source >>= Plan.link run := by
  simp only [compileModule, plan, planOf, bind_assoc, pure_bind]
  refine bind_congr fun d => bind_congr fun macroProgram => bind_congr fun names => bind_congr fun compiled => ?_
  simp only [Plan.link, Plan.source]
  split <;> rfl

/-! ### The programs of a plan -/

/-- Whether a function has parameters and a body. -/
def hasBody : SExp → Bool
  | .pair _ (.pair _ _) => true
  | _ => false

/-- The program of a function that has parameters and a body. -/
def programOf (macroProgram : SExp) (names : List Bytes) (function : SExp) : SExp :=
  ((functionProgram macroProgram (if names.isEmpty then Path.top else Path.right)
    (placesOf .left (buildTree (names.map .atom))) function).toOption).getD .nil

/-- The programs of the functions that are used, and of all constants. -/
def namedPrograms (macroProgram : SExp) (d : Declarations) (names : List Bytes) : Named :=
  ((d.functions.map fun e => (e.1, programOf macroProgram names e.2)).filter fun e => names.any (e.1 = some ·)) ++ d.constants

section Programs
variable {d : Declarations} {macroProgram : SExp} {names : List Bytes}

theorem keys_namedPrograms_sublist (macroProgram : SExp) (d : Declarations) (names : List Bytes) :
    ((namedPrograms macroProgram d names).map (·.1)).Sublist ((d.functions ++ d.constants).map (·.1)) := by
  have hkeys : ((d.functions.map fun e => (e.1, programOf macroProgram names e.2)) ++ d.constants).map (·.1) =
      (d.functions ++ d.constants).map (·.1) := by
    simp [Function.comp_def]
  rw [← hkeys]
  exact ((List.filter_sublist).append_right _).map _

theorem mem_namedPrograms {n : Bytes} {program : SExp} :
    (some n, program) ∈ namedPrograms macroProgram d names ↔
      (n ∈ names ∧ ∃ function, (some n, function) ∈ d.functions ∧ programOf macroProgram names function = program) ∨
        (some n, program) ∈ d.constants := by
  simp only [namedPrograms, List.mem_append, List.mem_filter, List.mem_map, Prod.mk.injEq, List.any_eq_true,
    decide_eq_true_eq, Option.some.injEq, exists_eq_right']
  refine or_congr_left ⟨?_, ?_⟩
  · rintro ⟨⟨⟨name, function⟩, hmem, hname, hprogram⟩, hn⟩
    cases hname
    exact ⟨hn, function, hmem, hprogram⟩
  · rintro ⟨hn, function, hmem, hprogram⟩
    exact ⟨⟨_, hmem, rfl, hprogram⟩, hn⟩

/-- Functions that have parameters and a body have programs. -/
theorem planOf_eq_ok (hkeys : ((d.functions ++ d.constants).map (·.1)).Nodup)
    (hfunctions : ∀ e ∈ d.functions, hasBody e.2 = true) {main : SExp}
    (hmain : (some mainName, main) ∈ d.functions) (s : Session) :
    planOf macroProgram d names s =
      .ok ⟨names, programOf macroProgram names main, namedPrograms macroProgram d names⟩ s := by
  have hcompiled : d.functions.mapM (fun e => (do
      return (e.1, ← functionProgram macroProgram (if names.isEmpty then Path.top else Path.right)
        (placesOf .left (buildTree (names.map .atom))) e.2) : Action Session (Option Bytes × SExp))) s =
      .ok (d.functions.map fun e => (e.1, programOf macroProgram names e.2)) s := by
    refine Action.mapM_eq_ok_of_forall fun e he => ?_
    obtain ⟨name, function⟩ := e
    have hbody := hfunctions _ he
    fun_cases hasBody function with
    | case1 parameters body more => rfl
    | case2 => simp_all [hasBody]
  have hprogram : (d.functions.map fun e => (e.1, programOf macroProgram names e.2)).lookup (some mainName) =
      some (programOf macroProgram names main) := by
    refine (lookup_eq_some_iff_mem ?_).mpr (List.mem_map.mpr ⟨_, hmain, rfl⟩)
    rw [List.map_append] at hkeys
    rw [List.map_map]
    exact hkeys.of_append_left
  have hprograms := foldl_put_of_nodup (hkeys.sublist (keys_namedPrograms_sublist macroProgram d names))
  rw [planOf]
  refine Action.bind_eq_ok.mpr ⟨_, s, hcompiled, ?_⟩
  rw [hprogram, Option.getD_some, hprograms]
  rfl

end Programs

/-! ### Rearranged modules -/

section Rearranging
variable {d₁ d₂ : Declarations} {main : SExp} {table : Named} {kept dead₁ dead₂ : List SExp} {names : List Bytes}

theorem Splits.programs_iff (h₁ : Splits d₁ main table kept dead₁) (h₂ : Splits d₂ main table kept dead₂) {n : Bytes}
    (hn : Stays kept n) (macroProgram program : SExp) :
    (some n, program) ∈ namedPrograms macroProgram d₁ names ↔ (some n, program) ∈ namedPrograms macroProgram d₂ names := by
  simp only [mem_namedPrograms, h₁.functions_iff h₂ hn, h₁.constants_iff h₂ hn]

theorem Splits.lookup_programs (h₁ : Splits d₁ main table kept dead₁) (h₂ : Splits d₂ main table kept dead₂) {n : Bytes}
    (hn : Stays kept n) (macroProgram : SExp) :
    (namedPrograms macroProgram d₁ names).lookup (some n) = (namedPrograms macroProgram d₂ names).lookup (some n) := by
  refine Option.ext fun program => ?_
  rw [lookup_eq_some_iff_mem (h₁.keys.sublist (keys_namedPrograms_sublist ..)),
    lookup_eq_some_iff_mem (h₂.keys.sublist (keys_namedPrograms_sublist ..)), h₁.programs_iff h₂ hn]

theorem Splits.mem_programs (h₁ : Splits d₁ main table kept dead₁) (h₂ : Splits d₂ main table kept dead₂)
    (hnames : ∀ n ∈ names, Stays kept n) {macroProgram : SExp} {e : Option Bytes × SExp}
    (he : e ∈ namedPrograms macroProgram d₂ names) :
    e ∈ namedPrograms macroProgram d₁ names ∨ ∃ v, e.2 = Form.quote v := by
  rcases List.mem_append.mp he with hfunction | hconstant
  · obtain ⟨n, hn, hname⟩ := List.any_eq_true.mp (List.mem_filter.mp hfunction).2
    obtain ⟨name, program⟩ := e
    cases of_decide_eq_true hname
    exact .inl ((h₁.programs_iff h₂ (hnames n hn) _ _).mpr he)
  · obtain ⟨x, -, hx⟩ := (h₂.constants e).mp hconstant
    exact .inr (constantOf?_snd hx)

end Rearranging

def isTextName (name : Option Bytes) : Bool := name.any fun b => !b.isEmpty && (Text.Utf8.decode? b).isSome

/-- Declarations whose names are texts that are not empty, and whose functions have parameters and a body. -/
structure Declarations.WellFormed (d : Declarations) : Prop where
  names : ∀ n ∈ d.names, isTextName n = true
  functions : ∀ e ∈ d.functions, hasBody e.2 = true

/-- An item whose name the main expression does not reach. -/
def Declarations.Unused (d : Declarations) (x : SExp) : Prop :=
  ∀ names, usedNames d.functions d.constants d.macros = .ok names → ∀ n ∈ names, nameOf x ≠ some n

/-- Items whose functions and constants are in another order, but for some that only one of the lists has. All others are
in the same order. -/
structure Rearranged (first second dead₁ dead₂ : List SExp) : Prop where
  fixed : first.filter (!isFree ·) = second.filter (!isFree ·)
  free : ∃ kept, (first.filter isFree).Perm (kept ++ dead₁) ∧ (second.filter isFree).Perm (kept ++ dead₂)

theorem Declarations.WellFormed.mainName_not_mem {d : Declarations} (h : d.WellFormed) : some mainName ∉ d.names := by
  intro hmem
  have := h.names _ hmem
  cases this

/-- One plan can stand for another: it has the same source, and runs no other programs than the other but quoted values. -/
structure Plan.Covers (p q : Plan) : Prop where
  names : p.names = q.names
  source : p.source = q.source
  programs : ∀ e ∈ q.programs, e ∈ p.programs ∨ ∃ v, e.2 = Form.quote v
  text : ∀ e ∈ q.programs, ∃ b text, e.1 = some b ∧ Text.Utf8.decode? b = some text
  nonempty : p.names ≠ [] → p.programs ≠ []

section Modules
variable {run : Runner} {fuel : Nat} {macros parameters main : SExp} {first second dead₁ dead₂ : List SExp}
  {d₁ d₂ : Declarations} {s s₁ s₂ : Session}

/-- Rearranged modules are collected in the same session, with the same macros and, but for those that only one of them
has, the same items. -/
theorem collect_rearranged (h₁ : collect run fuel (moduleSource parameters first main) s = .ok d₁ s₁)
    (h₂ : collect run fuel (moduleSource parameters second main) s = .ok d₂ s₂)
    (hmain₁ : some mainName ∉ d₁.names) (hmain₂ : some mainName ∉ d₂.names)
    (h : Rearranged first second dead₁ dead₂) :
    s₁ = s₂ ∧ d₁.macros = d₂.macros ∧ ∃ kept xs₁ xs₂,
      Declares d₁ (.ofList [parameters, main]) xs₁ ∧ xs₁.Perm (kept ++ dead₁) ∧
      Declares d₂ (.ofList [parameters, main]) xs₂ ∧ xs₂.Perm (kept ++ dead₂) ∧
      ∀ m ∈ d₁.macros, nameOf m ∈ kept.map nameOf := by
  obtain ⟨kept, hfirst, hsecond⟩ := h.free
  obtain ⟨yss, xs₁, hyss₁, hxs₁, hmacros₁, hd₁⟩ := collect_eq_ok h₁ hmain₁
  obtain ⟨yss₂, xs₂, hyss₂, hxs₂, hmacros₂, hd₂⟩ := collect_eq_ok h₂ hmain₂
  -- What acts on the session is the same on both sides, in the same order.
  rw [← h.fixed, hyss₁] at hyss₂
  cases hyss₂
  have hitems : ∀ {xs items dead : List SExp}, xs.Perm (items ++ yss.flatten) → items.Perm (kept ++ dead) →
      xs.Perm ((kept ++ yss.flatten) ++ dead) := by
    intro xs items dead hxs hitems
    refine (hxs.trans (hitems.append_right _)).trans ?_
    rw [List.append_assoc, List.append_assoc]
    exact List.perm_append_comm.append_left kept
  have hm₁ : d₁.macros = yss.flatten.filterMap macroOf? := hd₁.macros.trans hmacros₁
  have hm₂ : d₂.macros = yss.flatten.filterMap macroOf? := hd₂.macros.trans hmacros₂
  refine ⟨rfl, hm₁.trans hm₂.symm, kept ++ yss.flatten, xs₁, xs₂, hd₁, hitems hxs₁ hfirst, hd₂, hitems hxs₂ hsecond, ?_⟩
  intro m hm
  rw [hm₁] at hm
  obtain ⟨x, hx, hxm⟩ := List.mem_filterMap.mp hm
  rw [nameOf_of_macroOf? hxm, List.map_append]
  exact List.mem_append_right _ (List.mem_map_of_mem hx)

theorem programs_ne_nil {d : Declarations} {table : Named} {names : List Bytes}
    (hnames : IsUsed d.functions d.constants table names) (hne : names ≠ []) (macroProgram : SExp) :
    namedPrograms macroProgram d names ≠ [] := by
  obtain ⟨n, hn⟩ := List.exists_mem_of_ne_nil names hne
  rcases ((hnames.mem_iff n).mp hn).1 with hfunction | hconstant
  · obtain ⟨⟨_, function⟩, he, rfl⟩ := List.mem_map.mp hfunction
    exact List.ne_nil_of_mem (mem_namedPrograms.mpr (.inl ⟨hn, function, he, rfl⟩))
  · obtain ⟨⟨_, program⟩, he, rfl⟩ := List.mem_map.mp hconstant
    exact List.ne_nil_of_mem (mem_namedPrograms.mpr (.inr he))

theorem Splits.text_of_mem_programs {d : Declarations} {table : Named} {kept dead : List SExp} {names : List Bytes}
    (h : Splits d main table kept dead) (hwf : d.WellFormed) (hnames : IsUsed d.functions d.constants table names)
    {macroProgram : SExp} {e : Option Bytes × SExp} (he : e ∈ namedPrograms macroProgram d names) :
    ∃ b text, e.1 = some b ∧ Text.Utf8.decode? b = some text := by
  have hitem : ∃ x ∈ kept ++ dead, nameOf x = e.1 := by
    rcases List.mem_append.mp he with hfunction | hconstant
    · obtain ⟨hfunction, hname⟩ := List.mem_filter.mp hfunction
      obtain ⟨⟨name, function⟩, hmem, rfl⟩ := List.mem_map.mp hfunction
      rcases (h.functions _).mp hmem with hmain | ⟨x, hx, hxe⟩
      · obtain ⟨n, hn, hname⟩ := List.any_eq_true.mp hname
        cases hmain
        cases of_decide_eq_true hname
        exact absurd rfl ((hnames.mem_iff mainName).mp hn).2.1
      · exact ⟨x, hx, (nameOf_of_entryOf? hxe).symm⟩
    · obtain ⟨x, hx, hxe⟩ := (h.constants e).mp hconstant
      exact ⟨x, hx, (nameOf_of_entryOf? hxe).symm⟩
  have hname := hwf.names e.1 ((h.names _).mpr (List.mem_map.mpr hitem))
  rw [isTextName, Option.any_eq_true] at hname
  obtain ⟨b, hb, hname⟩ := hname
  obtain ⟨text, htext⟩ := Option.isSome_iff_exists.mp (Bool.and_eq_true_iff.mp hname).2
  exact ⟨b, text, hb, htext⟩

/-- Rearranged modules use the same names. -/
theorem usedNames_rearranged (h₁ : collect run fuel (moduleSource parameters first main) s = .ok d₁ s₁)
    (h₂ : collect run fuel (moduleSource parameters second main) s = .ok d₂ s₂) (hwf₁ : d₁.WellFormed)
    (hwf₂ : d₂.WellFormed) (h : Rearranged first second dead₁ dead₂) (hdead₁ : ∀ x ∈ dead₁, d₁.Unused x)
    (hdead₂ : ∀ x ∈ dead₂, d₂.Unused x) {names : List Bytes}
    (hnames : usedNames d₁.functions d₁.constants d₁.macros = .ok names) :
    usedNames d₂.functions d₂.constants d₂.macros = .ok names ∧ ∃ table kept,
      Splits d₁ (.ofList [parameters, main]) table kept dead₁ ∧ IsUsed d₁.functions d₁.constants table names ∧
      Splits d₂ (.ofList [parameters, main]) table kept dead₂ ∧ IsUsed d₂.functions d₂.constants table names := by
  have hmain₁ := hwf₁.mainName_not_mem
  have hmain₂ := hwf₂.mainName_not_mem
  obtain ⟨-, hmacros, kept, xs₁, xs₂, hd₁, hxs₁, hd₂, hxs₂, hkept₁⟩ := collect_rearranged h₁ h₂ hmain₁ hmain₂ h
  obtain ⟨table, htable₁, hused₁⟩ := exists_macrosByName hnames
  have htable₂ := htable₁
  have hkept₂ := hkept₁
  rw [hmacros] at htable₂ hkept₂
  obtain ⟨names₂, hnames₂, hused₂⟩ := exists_usedNames htable₂ d₂.functions d₂.constants
  have hsplit₁ := splits_of_declares hd₁ hxs₁ hmain₁ htable₁ hkept₁ hused₁ fun x hx => hdead₁ x hx names hnames
  have hsplit₂ := splits_of_declares hd₂ hxs₂ hmain₂ htable₂ hkept₂ hused₂ fun x hx => hdead₂ x hx names₂ hnames₂
  cases hsplit₁.names_eq hsplit₂ hused₁ hused₂
  exact ⟨hnames₂, table, kept, hsplit₁, hused₁, hsplit₂, hused₂⟩

theorem plan_rearranged (h₁ : collect run fuel (moduleSource parameters first main) s = .ok d₁ s₁)
    (h₂ : collect run fuel (moduleSource parameters second main) s = .ok d₂ s₂) (hwf₁ : d₁.WellFormed)
    (hwf₂ : d₂.WellFormed) (h : Rearranged first second dead₁ dead₂) (hdead₁ : ∀ x ∈ dead₁, d₁.Unused x)
    (hdead₂ : ∀ x ∈ dead₂, d₂.Unused x) {p₁ : Plan} {t : Session}
    (hplan : plan run fuel macros (moduleSource parameters first main) s = .ok p₁ t) :
    ∃ p₂, plan run fuel macros (moduleSource parameters second main) s = .ok p₂ t ∧ p₁.Covers p₂ := by
  obtain ⟨rfl, hmacros, -⟩ := collect_rearranged h₁ h₂ hwf₁.mainName_not_mem hwf₂.mainName_not_mem h
  obtain ⟨d, u, hcollect, hplan⟩ := Action.bind_eq_ok.mp hplan
  rw [h₁] at hcollect
  cases hcollect
  -- The session and the macros are the same, so the program of the macro table is.
  obtain ⟨macroProgram, u, hprogram, hplan⟩ := Action.bind_eq_ok.mp hplan
  obtain ⟨names, u', hlift, hplan⟩ := Action.bind_eq_ok.mp hplan
  obtain ⟨hnames₁, rfl⟩ := Action.lift_eq_ok.mp hlift
  obtain ⟨hnames₂, table, kept, hsplit₁, hused₁, hsplit₂, hused₂⟩ :=
    usedNames_rearranged h₁ h₂ hwf₁ hwf₂ h hdead₁ hdead₂ hnames₁
  have hmem₁ : (some mainName, SExp.ofList [parameters, main]) ∈ d₁.functions := (hsplit₁.functions _).mpr (.inl rfl)
  have hmem₂ : (some mainName, SExp.ofList [parameters, main]) ∈ d₂.functions := (hsplit₂.functions _).mpr (.inl rfl)
  rw [planOf_eq_ok hsplit₁.keys hwf₁.functions hmem₁] at hplan
  cases hplan
  refine ⟨⟨names, programOf macroProgram names (.ofList [parameters, main]), namedPrograms macroProgram d₂ names⟩, ?_, ?_⟩
  · rw [hmacros] at hprogram
    refine Action.bind_eq_ok.mpr ⟨d₂, s₁, h₂, Action.bind_eq_ok.mpr ⟨macroProgram, t, hprogram, ?_⟩⟩
    refine Action.bind_eq_ok.mpr ⟨names, t, Action.lift_eq_ok.mpr ⟨hnames₂, rfl⟩, ?_⟩
    exact planOf_eq_ok hsplit₂.keys hwf₂.functions hmem₂ t
  · have hstays : ∀ n ∈ names, Stays kept n := fun n hn => hsplit₁.stays ((hused₁.mem_iff n).mp hn).2.2
    refine ⟨rfl, ?_, fun e he => hsplit₁.mem_programs hsplit₂ hstays he,
      fun e he => hsplit₂.text_of_mem_programs hwf₂ hused₂ he, fun hne => programs_ne_nil hused₁ hne macroProgram⟩
    simp only [Plan.source]
    rw [List.map_congr_left fun n hn => by rw [hsplit₁.lookup_programs hsplit₂ (hstays n hn)]]

/-- What a linked plan is does not depend on the runs for its symbols. -/
theorem ofSource_of_link {p : Plan} {program : SExp} {t t' : Session} (h : p.link run t = .ok program t') :
    SExp.ofSource p.source = .ok program := by
  rw [Plan.link] at h
  split at h
  · exact (Action.lift_eq_ok.mp h).1
  · obtain ⟨_, u, -, h⟩ := Action.bind_eq_ok.mp h
    exact (Action.lift_eq_ok.mp h).1

end Modules

/-- A plan links where one does that covers it, if the programs of that do not read symbol files. -/
theorem exists_link_of_covers [Curve] {settings : Settings} {levels : Nat} {p q : Plan} (hpq : p.Covers q)
    {program : SExp} {t t' : Session} (h : p.link (runner settings levels) t = .ok program t')
    (hsteady : ∀ e ∈ p.programs, Steady (runner settings levels) t e.2) :
    ∃ u, q.link (runner settings levels) t = .ok program u := by
  have hsource := ofSource_of_link h
  rw [hpq.source] at hsource
  rw [Plan.link, hpq.names] at h
  rw [Plan.link]
  split at h
  · rename_i hempty
    rw [if_pos hempty]
    exact ⟨t, Action.lift_eq_ok.mpr ⟨hsource, rfl⟩⟩
  · rename_i hne
    rw [if_neg hne]
    obtain ⟨⟨⟩, u₁, hsymbols, -⟩ := Action.bind_eq_ok.mp h
    -- Some program was run, so there are steps enough for quoted values.
    obtain ⟨e, he⟩ := List.exists_mem_of_ne_nil _ (hpq.nonempty fun hnil => hne (by rw [← hpq.names, hnil]; rfl))
    obtain ⟨values, u, hvalues, -⟩ := Action.bind_eq_ok.mp hsymbols
    obtain ⟨_, -, r, _, hr⟩ := succeeds_of_nameValues (keeps_runner settings levels) hvalues e he
    have hlevels := four_le_of_runner hr
    obtain ⟨u₂, hu₂⟩ := exists_writeSymbols (keeps_runner settings levels) hsymbols hsteady hpq.text fun e he =>
      (hpq.programs e he).imp_right fun ⟨v, hv⟩ t => ⟨(20, v), t, by rw [hv, runner_quote settings hlevels]⟩
    exact ⟨u₂, Action.bind_eq_ok.mpr ⟨(), u₂, hu₂, Action.lift_eq_ok.mpr ⟨hsource, rfl⟩⟩⟩

/-- A module's program does not depend on the order of its functions and constants, nor on those that its main expression
does not reach: two modules that differ in these have the same program if both have one. And the second has one if the first
has, provided that no program which is run for its symbol needs a symbol file. -/
theorem compileModule_rearranged [Curve] {settings : Settings} {levels fuel : Nat} {macros parameters main : SExp}
    {first second dead₁ dead₂ : List SExp} {d₁ d₂ : Declarations} {s s₁ s₂ : Session}
    (h₁ : collect (runner settings levels) fuel (moduleSource parameters first main) s = .ok d₁ s₁)
    (h₂ : collect (runner settings levels) fuel (moduleSource parameters second main) s = .ok d₂ s₂)
    (hwf₁ : d₁.WellFormed) (hwf₂ : d₂.WellFormed) (h : Rearranged first second dead₁ dead₂)
    (hdead₁ : ∀ x ∈ dead₁, d₁.Unused x) (hdead₂ : ∀ x ∈ dead₂, d₂.Unused x) {p : SExp} {t : Session}
    (hp : compileModule (runner settings levels) fuel macros (moduleSource parameters first main) s = .ok p t) :
    (∀ q u, compileModule (runner settings levels) fuel macros (moduleSource parameters second main) s = .ok q u → q = p) ∧
    ((∀ l s', plan (runner settings levels) fuel macros (moduleSource parameters first main) s = .ok l s' →
        ∀ e ∈ l.programs, Steady (runner settings levels) s' e.2) →
      ∃ u, compileModule (runner settings levels) fuel macros (moduleSource parameters second main) s = .ok p u) := by
  rw [compileModule_eq_link] at hp
  obtain ⟨l, s', hl, hlink⟩ := Action.bind_eq_ok.mp hp
  obtain ⟨l₂, hl₂, hcovers⟩ := plan_rearranged h₁ h₂ hwf₁ hwf₂ h hdead₁ hdead₂ hl
  rw [compileModule_eq_link]
  refine ⟨fun q u hq => ?_, fun hsteady => ?_⟩
  · obtain ⟨l', s'', hl', hlink'⟩ := Action.bind_eq_ok.mp hq
    rw [hl₂] at hl'
    cases hl'
    have hsource := ofSource_of_link hlink
    rw [hcovers.source, ofSource_of_link hlink'] at hsource
    exact Except.ok.inj hsource
  · obtain ⟨u, hu⟩ := exists_link_of_covers hcovers hlink (hsteady l s' hl)
    exact ⟨u, Action.bind_eq_ok.mpr ⟨l₂, s', hl₂, hu⟩⟩

/-! ### Modules without macros -/

def functionItem (name : Bytes) (parameters body : SExp) : SExp :=
  .ofList [.atom Word.defineFunction, .atom name, parameters, body]

def constantItem (name : Bytes) (v : SExp) : SExp := .ofList [.atom Word.defineConstant, .atom name, v]

/-- A runner that has no search path and no macros to start from. -/
abbrev bareRunner : Runner := runner ⟨[], .ok .nil⟩ Machine.ample

/-- The program of a body with its symbols, where there are no macros. -/
def bareProgram (symbols : List SExp) (body : SExp) : SExp :=
  .ofList [.atom Word.opt, .ofList [.atom Word.com, Form.quote body, Form.quote .nil, Form.quote (.ofList symbols)]]

theorem plan_of_collect {run : Runner} {fuel : Nat} {macros source : SExp} {d : Declarations} {names : List Bytes}
    {s s₁ : Session} (hd : collect run fuel source s = .ok d s₁) (hmacros : d.macros = [])
    (hnames : usedNames d.functions d.constants [] = .ok names) :
    plan run fuel macros source s = planOf (Form.quote macros) d names s₁ := by
  simp only [plan, bind, EStateM.bind, hd, hmacros, macroTableProgram, List.foldlM_nil, hnames]
  rfl

namespace Adding

def f : Bytes := [102]
def k : Bytes := [107]
def x : SExp := .atom [120]

/-- `(+ x k)`. -/
def sum : SExp := .ofList [.atom [16], x, .atom k]

/-- `(f 3)`. -/
def main : SExp := .ofList [.atom f, .atom [3]]

/-- `(defconstant a 1)`. -/
def deadConstant : SExp := constantItem [97] .one

/-- `(defun g () (f k))`. -/
def deadFunction : SExp := functionItem [103] .nil (.ofList [.atom f, .atom k])

def first : List SExp := [constantItem k (.atom [7]), deadConstant, functionItem f (.ofList [x]) sum]
def second : List SExp := [deadFunction, functionItem f (.ofList [x]) sum, constantItem k (.atom [7])]

def firstDeclared : Declarations where
  functions := [(some f, .ofList [.ofList [x], sum]), (some mainName, .ofList [.nil, main])]
  constants := [(some k, Form.quote (.atom [7])), (some [97], Form.quote .one)]
  macros := []
  names := [some f, some [97], some k]

def secondDeclared : Declarations where
  functions := [(some [103], .ofList [.nil, .ofList [.atom f, .atom k]]), (some f, .ofList [.ofList [x], sum]),
    (some mainName, .ofList [.nil, main])]
  constants := [(some k, Form.quote (.atom [7]))]
  macros := []
  names := [some k, some f, some [103]]

def symbols : List SExp := [.ofList [.atom f, .atom [4]], .ofList [.atom k, .atom [6]]]

def firstPlan : Plan where
  names := [f, k]
  main := bareProgram symbols main
  programs := [(some f, bareProgram (.ofList [x, .atom [5]] :: symbols) sum), (some k, Form.quote (.atom [7])),
    (some [97], Form.quote .one)]

theorem collect_first :
    collect bareRunner Machine.ample (moduleSource .nil first main) (.start .empty) = .ok firstDeclared (.start .empty) := rfl

theorem collect_second :
    collect bareRunner Machine.ample (moduleSource .nil second main) (.start .empty) = .ok secondDeclared (.start .empty) := rfl

theorem usedNames_first : usedNames firstDeclared.functions firstDeclared.constants [] = .ok [f, k] := by
  have hsort : usedNames firstDeclared.functions firstDeclared.constants [] =
      .ok ([f, k].mergeSort fun x y => !Bytes.lt y x) := rfl
  exact hsort.trans (congrArg _ (Bytes.mergeSort_eq (by decide) (by decide)))

theorem usedNames_second : usedNames secondDeclared.functions secondDeclared.constants [] = .ok [f, k] := by
  have hsort : usedNames secondDeclared.functions secondDeclared.constants [] =
      .ok ([f, k].mergeSort fun x y => !Bytes.lt y x) := rfl
  exact hsort.trans (congrArg _ (Bytes.mergeSort_eq (by decide) (by decide)))

theorem plan_first :
    plan bareRunner Machine.ample .nil (moduleSource .nil first main) (.start .empty) = .ok firstPlan (.start .empty) := by
  have hplaces : placesOf .left (buildTree ([f, k].map .atom)) = symbols := by decide +kernel
  rw [plan_of_collect collect_first rfl usedNames_first, planOf]
  simp only [hplaces]
  rfl

theorem steady_first (s : Session) : ∀ e ∈ firstPlan.programs, Steady bareRunner s e.2 := by
  have hvalue : ∀ e ∈ firstPlan.programs, ∀ u, Action.isOk (bareRunner e.2 .nil) u = true := by
    simp only [firstPlan, List.forall_mem_cons, List.not_mem_nil, false_implies, implies_true, and_true]
    exact ⟨fun u => rfl, fun u => rfl, fun u => rfl⟩
  exact fun e he _ u _ _ _ => Action.isOk_iff.mp (hvalue e he u)

theorem unused_deadConstant : firstDeclared.Unused deadConstant := by
  intro names hnames
  cases usedNames_first.symm.trans hnames
  decide

theorem unused_deadFunction : secondDeclared.Unused deadFunction := by
  intro names hnames
  cases usedNames_second.symm.trans hnames
  decide

theorem rearranged : Rearranged first second [deadConstant] [deadFunction] where
  fixed := by decide
  free := ⟨[constantItem k (.atom [7]), functionItem f (.ofList [x]) sum], by decide, by decide⟩

/-- The two modules declare what they use in another order, each has something that it does not use, and they have one
program. -/
theorem same_program :
    firstDeclared.WellFormed ∧ secondDeclared.WellFormed ∧ Rearranged first second [deadConstant] [deadFunction] ∧
      firstDeclared.Unused deadConstant ∧ secondDeclared.Unused deadFunction ∧
      (∀ e ∈ firstPlan.programs, Steady bareRunner (.start .empty) e.2) ∧
      ∃ p t u, compileModule bareRunner Machine.ample .nil (moduleSource .nil first main) (.start .empty) = .ok p t ∧
        compileModule bareRunner Machine.ample .nil (moduleSource .nil second main) (.start .empty) = .ok p u := by
  have hwf₁ : firstDeclared.WellFormed := ⟨by decide, by decide⟩
  have hwf₂ : secondDeclared.WellFormed := ⟨by decide, by decide⟩
  have hlink : Action.isOk (firstPlan.link bareRunner) (.start .empty) = true := by decide +kernel
  obtain ⟨p, t, hp⟩ := Action.isOk_iff.mp hlink
  have hfirst : compileModule bareRunner Machine.ample .nil (moduleSource .nil first main) (.start .empty) = .ok p t := by
    rw [compileModule_eq_link]
    exact Action.bind_eq_ok.mpr ⟨_, _, plan_first, hp⟩
  obtain ⟨-, hsecond⟩ := compileModule_rearranged collect_first collect_second hwf₁ hwf₂ rearranged
    (List.forall_mem_singleton.mpr unused_deadConstant) (List.forall_mem_singleton.mpr unused_deadFunction) hfirst
  obtain ⟨u, hu⟩ := hsecond fun l s' hl => by
    cases plan_first.symm.trans hl
    exact steady_first _
  exact ⟨hwf₁, hwf₂, rearranged, unused_deadConstant, unused_deadFunction, steady_first _, p, t, u, hfirst, hu⟩

end Adding

namespace Reading

def rd : Bytes := [114, 100]
def wr : Bytes := [119, 114]

/-- `(_read (q . "main.sym"))`. -/
def reading : SExp := .ofList [.atom Word.readFile, Form.quote (.atom (asciiBytes symbolFile))]

/-- `(mod () (defconstant h 1) h)`. -/
def writing : SExp := .ofList [.atom Word.mod, .nil, constantItem [104] .one, .atom [104]]

/-- `(q rd wr)`. -/
def main : SExp := Form.quote (.ofList [.atom rd, .atom wr])

def writeFirst : Named := [(some wr, writing), (some rd, reading)]
def readFirst : Named := [(some rd, reading), (some wr, writing)]

def itemsOf (functions : Named) : List SExp := functions.map fun e => functionItem (e.1.getD []) .nil e.2

def declared (functions : Named) : Declarations where
  functions := (functions.map fun e => (e.1, .ofList [.nil, e.2])) ++ [(some mainName, .ofList [.nil, main])]
  constants := []
  macros := []
  names := (functions.map (·.1)).reverse

def symbols : List SExp := [.ofList [.atom rd, .atom [4]], .ofList [.atom wr, .atom [6]]]

def planned (functions : Named) : Plan where
  names := [rd, wr]
  main := bareProgram symbols main
  programs := functions.map fun e => (e.1, bareProgram symbols e.2)

theorem usedNames_writeFirst : usedNames (declared writeFirst).functions [] [] = .ok [rd, wr] := by
  have hsort : usedNames (declared writeFirst).functions [] [] = .ok ([wr, rd].mergeSort fun x y => !Bytes.lt y x) := rfl
  exact hsort.trans (congrArg _ (Bytes.mergeSort_eq (by decide) (by decide)))

theorem usedNames_readFirst : usedNames (declared readFirst).functions [] [] = .ok [rd, wr] := by
  have hsort : usedNames (declared readFirst).functions [] [] = .ok ([rd, wr].mergeSort fun x y => !Bytes.lt y x) := rfl
  exact hsort.trans (congrArg _ (Bytes.mergeSort_eq (by decide) (by decide)))

theorem placesOf_names : placesOf .left (buildTree ([rd, wr].map .atom)) = symbols := by decide +kernel

theorem plan_writeFirst :
    plan bareRunner Machine.ample .nil (moduleSource .nil (itemsOf writeFirst) main) (.start .empty) =
      .ok (planned writeFirst) (.start .empty) := by
  rw [plan_of_collect (d := declared writeFirst) rfl rfl usedNames_writeFirst, planOf]
  simp only [placesOf_names]
  rfl

theorem plan_readFirst :
    plan bareRunner Machine.ample .nil (moduleSource .nil (itemsOf readFirst) main) (.start .empty) =
      .ok (planned readFirst) (.start .empty) := by
  rw [plan_of_collect (d := declared readFirst) rfl rfl usedNames_readFirst, planOf]
  simp only [placesOf_names]
  rfl

/-- A module may have a program in one order of its functions and none in another: here one function reads the symbol file
that the module inside the other leaves. -/
theorem compileModule_order_matters :
    ¬ ∀ (settings : Settings) (levels fuel : Nat) (macros parameters main : SExp) (first second dead₁ dead₂ : List SExp)
      (d₁ d₂ : Declarations) (s s₁ s₂ : Session),
      collect (runner settings levels) fuel (moduleSource parameters first main) s = .ok d₁ s₁ →
      collect (runner settings levels) fuel (moduleSource parameters second main) s = .ok d₂ s₂ →
      d₁.WellFormed → d₂.WellFormed → Rearranged first second dead₁ dead₂ →
      (∀ x ∈ dead₁, d₁.Unused x) → (∀ x ∈ dead₂, d₂.Unused x) →
      ∀ p t, compileModule (runner settings levels) fuel macros (moduleSource parameters first main) s = .ok p t →
        ∃ u, compileModule (runner settings levels) fuel macros (moduleSource parameters second main) s = .ok p u := by
  intro h
  have hwrite : Action.isOk ((planned writeFirst).link bareRunner) (.start .empty) = true := by decide +kernel
  have hread : Action.isOk ((planned readFirst).link bareRunner) (.start .empty) = false := by decide +kernel
  obtain ⟨p, t, hp⟩ := Action.isOk_iff.mp hwrite
  have hfirst : compileModule bareRunner Machine.ample .nil (moduleSource .nil (itemsOf writeFirst) main) (.start .empty) =
      .ok p t := by
    rw [compileModule_eq_link]
    exact Action.bind_eq_ok.mpr ⟨_, _, plan_writeFirst, hp⟩
  have hswapped : Rearranged (itemsOf writeFirst) (itemsOf readFirst) [] [] :=
    ⟨by decide, itemsOf writeFirst, by decide, by decide⟩
  obtain ⟨u, hu⟩ := h _ _ _ _ _ _ _ _ [] [] (declared writeFirst) (declared readFirst) _ _ (.start .empty) rfl rfl
    ⟨by decide, by decide⟩ ⟨by decide, by decide⟩ hswapped nofun nofun p t hfirst
  rw [compileModule_eq_link] at hu
  obtain ⟨l, s', hl, hu⟩ := Action.bind_eq_ok.mp hu
  cases plan_readFirst.symm.trans hl
  rw [Action.isOk_iff.mpr ⟨_, _, hu⟩] at hread
  cases hread

end Reading

end Clvm.Compiler
