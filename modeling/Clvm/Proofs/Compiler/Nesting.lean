import Clvm.Proofs.Compiler.Quasi

/-!
# Levels of quasi-quotation

What a quasi-quotation gives, for every template. The compiler counts the level along the forms `qq` and `unquote` that
stand directly in each other and starts again at every pair, and it compiles once more what stands in a form that it keeps.
A template without inner `qq` forms is not touched by either. In others, a form may be filled that should be kept, and the
program that is put there may not be the one that its expression compiles to.
-/

namespace Clvm.Compiler
open Machine

/-- A place where a program is put: its expression, how many levels too early it is filled, how often the program is
compiled again, and whether it is then run in an environment of its own. -/
structure Site where
  source : SExp
  depth : Nat
  passes : Nat
  moved : Bool

/-- The program that does in the environment of the template what one does that was moved. -/
def Site.placed (s : Site) (again : SExp) : SExp :=
  if s.moved then Form.apply (Form.quote again) (Form.quote .one) else again

/-- The places that the compiler fills. The level starts again at a pair, while the depth goes on; what stands in a pair is
moved if the pair is compiled again. -/
def Template.sites (depth level passes : Nat) (moved : Bool) : Template → Outline Site
  | .leaf b => .leaf b
  | .quasi t => .form Word.quasi (t.sites (depth + 1) (level + 1) (passes + 1) moved)
  | .unquote t =>
    match level with
    | 0 => .hole ⟨t.toTree, depth, passes, moved⟩
    | level + 1 => .form Word.unquote (t.sites (depth - 1) level (passes + 1) moved)
  | .pair x y => .pair (x.sites depth 0 0 (moved || passes != 0)) (y.sites depth 0 0 (moved || passes != 0))

/-- What is put in a place: the program of its expression, and the one that it has become there. -/
structure Filling where
  program : SExp
  placed : SExp

def Fills (scope : Scope) (s : Site) (w : Session) (f : Filling) (w' : Session) : Prop :=
  ∃ w₁ again, Compiles scope s.source w f.program w₁ ∧ Recompiles scope s.passes f.program w₁ again w' ∧
    (s.moved = true → Lowered again) ∧ f.placed = s.placed again

variable {scope : Scope} {w w₁ w' : Session}

/-- A template compiles at a level, and the program, compiled again and run where it is moved to, gives the outline with
the values of what was put in its places. -/
def Builds [Curve] (scope : Scope) (level passes : Nat) (moved : Bool) (t : Template) (w : Session)
    (o : Outline Filling) (w' : Session) : Prop :=
  ∃ post last w₁, CompilesQuasi scope (level + 1) t.toTree w post w₁ ∧ Recompiles scope passes post w₁ last w' ∧
    (moved = true → Lowered last) ∧ ∀ {σ : Type} {ops : Operators σ}, PairsValues ops → ∀ env,
      value ops last (if moved then .one else env) = (o.map (·.placed)).value ops env

theorem value_placed {σ : Type} {ops : Operators σ} (s : Site) (again env : SExp) :
    value ops (s.placed again) env = value ops again (if s.moved then .one else env) := by
  unfold Site.placed
  split
  · exact value_run (value_formQuote _ _) again
  · rfl

/-! ### One form of a template -/

section Forms
variable [Curve] {level passes : Nat} {moved : Bool}

theorem builds_leaf (b : Bytes) (hclear : passes ≠ 0 → Clear scope) (w : Session) :
    Builds scope level passes moved (.leaf b) w (.leaf b) w := by
  have hlow : Lowered (Form.quote (.atom b)) := lowered_quote rfl
  refine ⟨_, Form.quote (.atom b), w, compilesQuasi_leaf _ b w, ?_, fun _ => hlow, fun _ env => value_formQuote _ _⟩
  cases passes with
  | zero => exact .done _ w
  | succ passes => exact recompiles_self hlow (compiles_quote (hclear (Nat.succ_ne_zero _)) rfl) _ w

theorem builds_hole {t : Template} {depth : Nat} {f : Filling} (h : Fills scope ⟨t.toTree, depth, passes, moved⟩ w f w') :
    Builds scope 0 passes moved (.unquote t) w (.hole f) w' := by
  obtain ⟨w₁, again, hsource, hagain, hlow, hplaced⟩ := h
  refine ⟨f.program, again, w₁, compilesQuasi_hole hsource, hagain, hlow, fun _ env => ?_⟩
  rw [Outline.map, Outline.value, hplaced, value_placed]

/-- A form that is kept, at a level below which its argument stands. -/
theorem builds_form {inner : Nat} {op : Bytes} {t form : Template} {o : Outline Filling} (hclear : Clear scope)
    (hform : op = Word.quasi ∧ form = .quasi t ∧ inner = level + 1 ∨
      op = Word.unquote ∧ form = .unquote t ∧ level = inner + 1)
    (h : Builds scope inner (passes + 1) moved t w o w') :
    Builds scope level passes moved form w (.form op o) w' := by
  obtain ⟨sub, last, w₁, hsub, hlast, hlow, hvalue⟩ := h
  have hop : op = Word.quasi ∨ op = Word.unquote := hform.imp And.left And.left
  obtain ⟨post, w₂, hpost, hagain⟩ := recompiles_rebuild hclear hop hlast
  refine ⟨post, rebuilt op last, w₂, ?_, hagain, fun h => lowered_rebuilt op (hlow h), fun hops env => ?_⟩
  · rcases hform with ⟨rfl, rfl, rfl⟩ | ⟨rfl, rfl, rfl⟩
    · exact compilesQuasi_form (.inl ⟨rfl, by push_cast; rfl⟩) hsub hpost
    · exact compilesQuasi_form (.inr ⟨rfl, by omega, by omega⟩) hsub hpost
  · rw [value_rebuilt hops, hvalue hops, ← Outline.value_form]
    rfl

theorem builds_pair {x y : Template} {p q : Outline Filling} (hclear : passes ≠ 0 → Clear scope)
    (hnone : lookupMacro Word.quasi scope.macros = .ok none)
    (hlow : Word.quote ∉ x.toTree.leaves ∧ Word.quote ∉ y.toTree.leaves) (hwf : (Template.pair x y).WellFormed)
    (hx : Builds scope 0 0 (moved || passes != 0) x w p w₁) (hy : Builds scope 0 0 (moved || passes != 0) y w₁ q w') :
    Builds scope level passes moved (.pair x y) w (.pair p q) w' := by
  obtain ⟨px, _, _, hcx, ⟨⟩, hlx, hvx⟩ := hx
  obtain ⟨py, _, _, hcy, ⟨⟩, hly, hvy⟩ := hy
  have hpost : CompilesQuasi scope (level + 1) (.pair x.toTree y.toTree) w (joined Path.top.toSExp px py) w' :=
    compilesQuasi_pair (mt Template.eq_leaf_of_toTree hwf.1) (mt Template.eq_leaf_of_toTree hwf.2.1)
      (compiles_quasi hlow.1 hnone hcx) (compiles_quasi hlow.2 hnone hcy)
  -- the parts are run in the environment, unless the path to it is compiled again
  cases passes with
  | zero =>
    simp only [bne_self_eq_false, Bool.or_false] at hlx hly hvx hvy
    refine ⟨_, _, w', hpost, .done _ _, fun h => lowered_joined (lowered_atom (by decide)) (hlx h) (hly h), ?_⟩
    intro σ ops hops env
    rw [value_joined hops (value_top _ _), hvx hops, hvy hops]
    rfl
  | succ passes =>
    have hmoved : (moved || passes + 1 != 0) = true := by simp
    simp only [hmoved, ↓reduceIte, forall_const] at hlx hly hvx hvy
    refine ⟨_, _, w', hpost, recompiles_joined (hclear (Nat.succ_ne_zero _)) hlx hly passes w',
      fun _ => lowered_joined (lowered_quote rfl) hlx hly, ?_⟩
    intro σ ops hops env
    rw [value_joined hops (value_formQuote _ _), hvx hops env, hvy hops env]
    rfl

end Forms

/-- What every template builds. -/
theorem builds_sites [Curve] (hnone : lookupMacro Word.quasi scope.macros = .ok none) {t : Template}
    (hwf : t.WellFormed) (hlow : Word.quote ∉ t.toTree.leaves) {depth level passes : Nat} {moved : Bool} {o : Outline Filling}
    (hclear : passes ≠ 0 ∨ level ≠ 0 ∨ t.HasInner → Clear scope)
    (h : (t.sites depth level passes moved).Threads (Fills scope) w o w') :
    Builds scope level passes moved t w o w' := by
  -- a pair sets the level and the passes back to zero, so the parts need no clear scope unless they have inner forms
  induction t generalizing depth level passes moved w o w' with
  | leaf b =>
    cases h
    exact builds_leaf b (fun h => hclear (.inl h)) w
  | quasi t ih =>
    obtain ⟨o, rfl, ht⟩ := h.of_form
    have hclear := hclear (.inr (.inr trivial))
    refine builds_form hclear (.inl ⟨rfl, rfl, rfl⟩) (ih hwf ?_ (fun _ => hclear) ht)
    exact mt (mem_leaves_of_mem (List.mem_cons_of_mem _ List.mem_cons_self)) hlow
  | unquote t ih =>
    cases level with
    | zero =>
      cases h with
      | hole h => exact builds_hole h
    | succ level =>
      obtain ⟨o, rfl, ht⟩ := h.of_form
      have hclear := hclear (.inr (.inl (Nat.succ_ne_zero _)))
      refine builds_form hclear (.inr ⟨rfl, rfl, rfl⟩) (ih hwf ?_ (fun _ => hclear) ht)
      exact mt (mem_leaves_of_mem (List.mem_cons_of_mem _ List.mem_cons_self)) hlow
  | pair x y ihx ihy =>
    cases h with
    | pair hx hy =>
      have hparts : Word.quote ∉ x.toTree.leaves ∧ Word.quote ∉ y.toTree.leaves := by
        simpa [Template.toTree, SExp.leaves] using hlow
      have hclearx : 0 ≠ 0 ∨ 0 ≠ 0 ∨ x.HasInner → Clear scope := fun h =>
        hclear (.inr (.inr (.inl (by simpa using h))))
      have hcleary : 0 ≠ 0 ∨ 0 ≠ 0 ∨ y.HasInner → Clear scope := fun h =>
        hclear (.inr (.inr (.inr (by simpa using h))))
      exact builds_pair (fun h => hclear (.inl h)) hnone hparts hwf (ihx hwf.2.2.1 hparts.1 hclearx hx)
        (ihy hwf.2.2.2 hparts.2 hcleary hy)

/-- A quasi-quotation compiles if its places can be filled, and gives what was put there. -/
theorem compiles_template [Curve] (hnone : lookupMacro Word.quasi scope.macros = .ok none) {t : Template}
    (hwf : t.WellFormed) (hlow : Word.quote ∉ t.toTree.leaves) (hclear : t.HasInner → Clear scope) {o : Outline Filling}
    (h : (t.sites 0 0 0 false).Threads (Fills scope) w o w') :
    ∃ program, Compiles scope (.ofList [.atom Word.quasi, t.toTree]) w program w' ∧
      ∀ {σ : Type} {ops : Operators σ}, PairsValues ops → ∀ env,
        value ops program env = (o.map (·.placed)).value ops env := by
  have hclear' : 0 ≠ 0 ∨ 0 ≠ 0 ∨ t.HasInner → Clear scope := by simpa using hclear
  obtain ⟨post, _, _, hpost, ⟨⟩, -, hvalue⟩ := builds_sites hnone hwf hlow hclear' h
  refine ⟨_, compiles_quasi hlow hnone hpost, fun hops env => ?_⟩
  rw [value_run (value_top _ _), ← hvalue hops]
  rfl

/-! ### Flat templates -/

theorem sites_flat {t : Template} (h : ¬t.HasInner) :
    t.sites 0 0 0 false = (t.outline 0).map fun source => ⟨source, 0, 0, false⟩ := by
  induction t with
  | leaf b => rfl
  | quasi t _ => exact absurd trivial h
  | unquote t _ => rfl
  | pair x y ihx ihy =>
    have hx := ihx fun hx => h (.inl hx)
    have hy := ihy fun hy => h (.inr hy)
    show Outline.pair (x.sites 0 0 0 false) (y.sites 0 0 0 false) = _
    rw [hx, hy]
    rfl

/-- A program that is not moved stands in its place as it comes from being compiled again. -/
theorem fills_of_recompiles {source program again : SExp} {depth passes : Nat} (h : Compiles scope source w program w₁)
    (hagain : Recompiles scope passes program w₁ again w') :
    Fills scope ⟨source, depth, passes, false⟩ w ⟨program, again⟩ w' :=
  ⟨w₁, again, h, hagain, fun hmoved => absurd hmoved Bool.false_ne_true, rfl⟩

/-- A quasi-quotation without another inside compiles if the unquoted expressions do, one after the other, and gives its
template with their values in their places, or fails as they do. -/
theorem quasi_fills_template [Curve] {template : SExp} (hnone : lookupMacro Word.quasi scope.macros = .ok none)
    (hquasi : Word.quasi ∉ template.leaves) (hquote : Word.quote ∉ template.leaves)
    (hunquote : Unary Word.unquote template) {filled : Outline SExp}
    (hparts : ((Template.ofTree template).outline 0).Threads (Compiles scope) w filled w') :
    ∃ program, Compiles scope (.ofList [.atom Word.quasi, template]) w program w' ∧
      ∀ settings run fuel env, value (operators settings run fuel) program env =
        filled.value (operators settings run fuel) env := by
  have hwf : (Template.ofTree template).WellFormed := Template.wellFormed_ofTree (unary_of_not_mem hquasi) hunquote
  have hflat : ¬(Template.ofTree template).HasInner := fun h =>
    hquasi (Template.toTree_ofTree template ▸ Template.quasi_mem_of_hasInner h)
  have hfills : ((Template.ofTree template).sites 0 0 0 false).Threads (Fills scope) w (filled.map fun p => ⟨p, p⟩) w' := by
    rw [sites_flat hflat]
    exact hparts.map fun _ _ _ _ h => fills_of_recompiles h (.done _ _)
  rw [← Template.toTree_ofTree template] at hquote
  obtain ⟨program, hprogram, hvalue⟩ := compiles_template hnone hwf hquote (fun h => absurd h hflat) hfills
  rw [Template.toTree_ofTree] at hprogram
  refine ⟨program, hprogram, fun settings run fuel env => ?_⟩
  rw [hvalue (pairsValues_operators settings run fuel), Outline.map_map, Outline.map_id]

/-- The scope in which no word has a meaning of its own. -/
def bareScope : Scope := ⟨.nil, .nil, fun _ => throw .outOfFuel⟩

/-- The template `(b (unquote (+ @ 5)) unquote @)`, with a form in its tail. -/
theorem quasi_fills_template_tail :
    let sum := SExp.ofList [.atom [16], .atom Word.all, .atom [5]]
    let template := SExp.pair (.atom [98])
      (.pair (.ofList [.atom Word.unquote, sum]) (.ofList [.atom Word.unquote, .atom Word.all]))
    let filled := Outline.pair (.leaf [98])
      (.pair (.hole (.ofList [.atom [16], Path.top.toSExp, Form.quote (.atom [5])])) (.hole Path.top.toSExp))
    let w := Session.start .empty
    lookupMacro Word.quasi bareScope.macros = .ok none ∧ Word.quasi ∉ template.leaves ∧ Word.quote ∉ template.leaves ∧
    Unary Word.unquote template ∧ ((Template.ofTree template).outline 0).Threads (Compiles bareScope) w filled w ∧
    ∃ program, Compiles bareScope (.ofList [.atom Word.quasi, template]) w program w ∧
      ∀ settings run fuel env, value (operators settings run fuel) program env =
        filled.value (operators settings run fuel) env := by
  intro sum template filled w
  have hnone : lookupMacro Word.quasi bareScope.macros = .ok none := rfl
  have hquasi : Word.quasi ∉ template.leaves := by decide
  have hquote : Word.quote ∉ template.leaves := by decide
  have hunquote : Unary Word.unquote template := by decide
  have hsum : Compiles bareScope sum w (.ofList [.atom [16], Path.top.toSExp, Form.quote (.atom [5])]) w :=
    compiles_of_compile (show compile bareScope 2 sum w = _ from rfl)
  have hparts : ((Template.ofTree template).outline 0).Threads (Compiles bareScope) w filled w :=
    .pair (.leaf _ _) (.pair (.hole hsum) (.hole (compiles_all w)))
  exact ⟨hnone, hquasi, hquote, hunquote, hparts, quasi_fills_template hnone hquasi hquote hunquote hparts⟩

/-! ### Templates in templates -/

/-- The places that are filled are those that should be if and only if the level of none is above zero. -/
theorem sources_eq_outline_iff {t : Template} {depth level passes : Nat} {moved : Bool} (hle : level ≤ depth) :
    (t.sites depth level passes moved).map (·.source) = t.outline depth ↔
      ∀ s ∈ (t.sites depth level passes moved).holes, s.depth = 0 := by
  induction t generalizing depth level passes moved with
  | leaf b => exact ⟨fun _ => nofun, fun _ => rfl⟩
  | quasi t ih =>
    rw [Template.sites, Template.outline, Outline.map_form, Outline.form_inj, Outline.holes_form]
    exact ih (Nat.succ_le_succ hle)
  | unquote t ih =>
    cases level with
    | zero =>
      cases depth with
      | zero => simp [Template.sites, Template.outline, Outline.map, Outline.holes]
      | succ depth => simp [Template.sites, Template.outline, Outline.map, Outline.holes, Outline.form]
    | succ level =>
      obtain ⟨depth, rfl⟩ := Nat.exists_eq_add_of_le' (Nat.le_of_add_left_le hle)
      rw [Template.sites, Template.outline, Outline.map_form, Outline.form_inj, Outline.holes_form]
      exact ih (Nat.le_of_succ_le_succ hle)
  | pair x y ihx ihy =>
    simp only [Template.sites, Template.outline, Outline.map, Outline.holes, Outline.pair.injEq, List.mem_append,
      ihx (Nat.zero_le depth), ihy (Nat.zero_le depth), or_imp, forall_and]

/-- A quasi-quotation gives its template with the values of what the compiler puts in the places that it fills. These are
the places that should be filled if and only if none stands at a level above zero. Then each gets the program of its
expression, and the values are those of these programs as far as compiling them again and moving them keeps their values. -/
theorem nested_quasi_fills_sites [Curve] {template : SExp} (hnone : lookupMacro Word.quasi scope.macros = .ok none)
    (hquote : Word.quote ∉ template.leaves) (hquasi : Unary Word.quasi template)
    (hunquote : Unary Word.unquote template) (hclear : (Template.ofTree template).HasInner → Clear scope)
    {o : Outline Filling} (hfills : ((Template.ofTree template).sites 0 0 0 false).Threads (Fills scope) w o w') :
    let sites := (Template.ofTree template).sites 0 0 0 false
    let meant := (Template.ofTree template).outline 0
    ∃ program, Compiles scope (.ofList [.atom Word.quasi, template]) w program w' ∧
      (∀ settings run fuel env, value (operators settings run fuel) program env =
        (o.map (·.placed)).value (operators settings run fuel) env) ∧
      (sites.map (·.source) = meant ↔ ∀ s ∈ sites.holes, s.depth = 0) ∧
      ((∀ s ∈ sites.holes, s.depth = 0) →
        meant.Threads (fun source w p _ => ∃ w₁, Compiles scope source w p w₁) w (o.map (·.program)) w' ∧
        ∀ settings run fuel env,
          (∀ f ∈ o.holes, value (operators settings run fuel) f.placed env =
            value (operators settings run fuel) f.program env) →
          value (operators settings run fuel) program env =
            (o.map (·.program)).value (operators settings run fuel) env) := by
  intro sites meant
  have hsources : sites.map (·.source) = meant ↔ ∀ s ∈ sites.holes, s.depth = 0 :=
    sources_eq_outline_iff (Nat.le_refl 0)
  rw [← Template.toTree_ofTree template] at hquote
  obtain ⟨program, hprogram, hvalue⟩ :=
    compiles_template hnone (Template.wellFormed_ofTree hquasi hunquote) hquote hclear hfills
  rw [Template.toTree_ofTree] at hprogram
  have hplaced := fun settings run fuel => hvalue (pairsValues_operators settings run fuel)
  refine ⟨program, hprogram, hplaced, hsources, fun hdepth => ⟨?_, fun settings run fuel env hsame => ?_⟩⟩
  · rw [← hsources.mpr hdepth]
    refine hfills.map fun s w f w' hf => ?_
    obtain ⟨w₁, -, hprogram, -⟩ := hf
    exact ⟨w₁, hprogram⟩
  · rw [hplaced, Outline.value_congr hsame]

theorem clear_bareScope : Clear bareScope := ⟨fun _ _ => rfl, fun _ _ => rfl⟩

/-- The template `(b (unquote @) (qq (unquote (unquote (q . 7)))))`: the form inside unquotes a constant. -/
theorem nested_quasi_fills_sites_constant :
    let constant := Form.quote (.atom [7])
    let inner := SExp.ofList [.atom Word.quasi, .ofList [.atom Word.unquote, .ofList [.atom Word.unquote, constant]]]
    let template := SExp.ofList [.atom [98], .ofList [.atom Word.unquote, .atom Word.all], inner]
    let sites := (Template.ofTree template).sites 0 0 0 false
    let o := Outline.pair (.leaf [98]) (.pair (.hole ⟨Path.top.toSExp, Path.top.toSExp⟩)
      (.pair (.form Word.quasi (.form Word.unquote (.hole ⟨constant, constant⟩))) (.leaf [])))
    let w := Session.start .empty
    lookupMacro Word.quasi bareScope.macros = .ok none ∧ Word.quote ∉ template.leaves ∧ Unary Word.quasi template ∧
    Unary Word.unquote template ∧ Clear bareScope ∧ sites.Threads (Fills bareScope) w o w ∧
    (∀ s ∈ sites.holes, s.depth = 0) ∧
    ∃ program, Compiles bareScope (.ofList [.atom Word.quasi, template]) w program w ∧
      ∀ settings run fuel env, value (operators settings run fuel) program env =
        (o.map (·.program)).value (operators settings run fuel) env := by
  intro constant inner template sites o w
  have hnone : lookupMacro Word.quasi bareScope.macros = .ok none := rfl
  have hquote : Word.quote ∉ template.leaves := by decide
  have hquasi : Unary Word.quasi template := by decide
  have hunquote : Unary Word.unquote template := by decide
  have hconstant : Fills bareScope ⟨constant, 0, 2, false⟩ w ⟨constant, constant⟩ w :=
    have hself := compiles_quote clear_bareScope rfl
    fills_of_recompiles (hself w) (recompiles_self (lowered_quote rfl) hself 2 w)
  have hall : Fills bareScope ⟨.atom Word.all, 0, 0, false⟩ w ⟨Path.top.toSExp, Path.top.toSExp⟩ w :=
    fills_of_recompiles (compiles_all w) (.done _ _)
  have hfills : sites.Threads (Fills bareScope) w o w :=
    .pair (.leaf _ _) (.pair (.hole hall) (.pair (.form _ (.form _ (.hole hconstant))) (.leaf _ _)))
  have hholes : sites.holes = [⟨.atom Word.all, 0, 0, false⟩, ⟨constant, 0, 2, false⟩] := rfl
  have hdepth : ∀ s ∈ sites.holes, s.depth = 0 := by simp [hholes]
  obtain ⟨program, hprogram, -, -, hmeant⟩ :=
    nested_quasi_fills_sites hnone hquote hquasi hunquote (fun _ => clear_bareScope) hfills
  refine ⟨hnone, hquote, hquasi, hunquote, clear_bareScope, hfills, hdepth, program, hprogram, ?_⟩
  intro settings run fuel env
  exact (hmeant hdepth).2 settings run fuel env (by simp [o, Outline.holes, Outline.form])

/-- In `(qq (b (unquote 5)))` a form is filled that should be kept, and in `(qq (unquote (unquote @)))` the environment
becomes a constant. -/
theorem nested_quasi_loses_level_and_environment :
    let early := SExp.ofList [.atom Word.quasi, .ofList [.atom [98], .ofList [.atom Word.unquote, .atom [5]]]]
    let twice := SExp.ofList [.atom Word.quasi, .ofList [.atom Word.unquote, .ofList [.atom Word.unquote, .atom Word.all]]]
    let kept := Outline.form Word.quasi (.form Word.unquote (.hole Path.top.toSExp))
    let w := Session.start .empty
    (((Template.ofTree early).outline 0).holes = [] ∧
      ∃ program, Compiles bareScope (.ofList [.atom Word.quasi, early]) w program w ∧
        ∀ settings run fuel env, value (operators settings run fuel) program env =
          pure (.ofList [.atom Word.quasi, .ofList [.atom [98], .atom [5]]])) ∧
    ((Template.ofTree twice).outline 0).Threads (Compiles bareScope) w kept w ∧
      ∃ program, Compiles bareScope (.ofList [.atom Word.quasi, twice]) w program w ∧
        ∀ settings run fuel env,
          kept.value (operators settings run fuel) env =
            pure (.ofList [.atom Word.quasi, .ofList [.atom Word.unquote, env]]) ∧
          value (operators settings run fuel) program env =
            pure (.ofList [.atom Word.quasi, .ofList [.atom Word.unquote, .one]]) := by
  intro early twice kept w
  have hwf : (Template.ofTree early).WellFormed ∧ (Template.ofTree twice).WellFormed :=
    ⟨Template.wellFormed_ofTree (by decide) (by decide), Template.wellFormed_ofTree (by decide) (by decide)⟩
  refine ⟨⟨rfl, ?_⟩, .form _ (.form _ (.hole (compiles_all w))), ?_⟩
  · let five := Form.quote (.atom [5])
    have hfive : Fills bareScope ⟨.atom [5], 1, 0, true⟩ w ⟨five, Form.apply (Form.quote five) (Form.quote .one)⟩ w :=
      ⟨w, five, compiles_word (by decide) rfl w, .done _ _, fun _ => lowered_quote rfl, rfl⟩
    have hfills : ((Template.ofTree early).sites 0 0 0 false).Threads (Fills bareScope) w
        (.form Word.quasi (.pair (.leaf [98]) (.pair (.hole ⟨five, _⟩) (.leaf [])))) w :=
      .form _ (.pair (.leaf _ _) (.pair (.hole hfive) (.leaf _ _)))
    obtain ⟨program, hprogram, hvalue⟩ := compiles_template rfl hwf.1 (by decide) (fun _ => clear_bareScope) hfills
    refine ⟨program, hprogram, fun settings run fuel env => ?_⟩
    have hput : value (operators settings run fuel) (Form.apply (Form.quote five) (Form.quote .one)) env =
        pure (.atom [5]) := by
      rw [value_run (value_formQuote _ _), value_formQuote]
    rw [hvalue (pairsValues_operators settings run fuel), Outline.map_form, Outline.value_form]
    simp only [Outline.map, Outline.value, hput, pure_bind]
    rfl
  · let one := Form.quote .one
    have hone : Recompiles bareScope 2 Path.top.toSExp w one w :=
      .again (lowered_atom (by decide)) (compiles_top clear_bareScope w)
        (recompiles_self (lowered_quote rfl) (compiles_quote clear_bareScope rfl) 1 w)
    have hfills : ((Template.ofTree twice).sites 0 0 0 false).Threads (Fills bareScope) w
        (.form Word.quasi (.form Word.unquote (.hole ⟨Path.top.toSExp, one⟩))) w :=
      .form _ (.form _ (.hole (fills_of_recompiles (compiles_all w) hone)))
    obtain ⟨program, hprogram, hvalue⟩ := compiles_template rfl hwf.2 (by decide) (fun _ => clear_bareScope) hfills
    refine ⟨program, hprogram, fun settings run fuel env => ⟨?_, ?_⟩⟩
    · simp only [kept, Outline.value_form, Outline.value, value_top, pure_bind]
    · rw [hvalue (pairsValues_operators settings run fuel), Outline.map_form, Outline.map_form,
        Outline.value_form, Outline.value_form]
      simp only [Outline.map, Outline.value, one, value_formQuote, pure_bind]

end Clvm.Compiler
