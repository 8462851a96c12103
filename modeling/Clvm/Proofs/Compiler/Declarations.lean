import Clvm.Compiler.Declarations
import Clvm.Proofs.Action
import Mathlib.Data.List.Nodup

/-!
# What a module declares

A module's items are declared one after the other, those of an included file in place of the inclusion (`expand`). A name
is declared once, so every table of declarations lists what the items declare, in their order (`Tabulates`). Functions and
constants do not act on the session: wherever they stand among the items, the others are declared in the same way
(`collect_eq_ok`).
-/

namespace Clvm.Compiler

/-! ### Items -/

/-- The name that an item declares. -/
def nameOf : SExp → Option Bytes
  | .pair _ (.pair name _) => name.bytes?
  | _ => none

/-- What an item of a keyword declares: its name, and what is read after that. -/
def entryOf? (keyword : Bytes) (read : SExp → Option SExp) : SExp → Option (Option Bytes × SExp)
  | .pair (.atom word) (.pair name declaration) =>
    if word = keyword then (read declaration).map fun t => (name.bytes?, t) else none
  | _ => none

/-- The program of a constant's value. -/
def constantProgram? : SExp → Option SExp
  | .pair v _ => some (Form.quote v)
  | .atom _ => none

def functionOf? : SExp → Option (Option Bytes × SExp) := entryOf? Word.defineFunction some

def constantOf? : SExp → Option (Option Bytes × SExp) := entryOf? Word.defineConstant constantProgram?

/-- The macro that an item declares. -/
def macroOf? : SExp → Option SExp
  | .pair keyword declaration =>
    if keyword = .atom Word.defineMacro then some (.pair keyword declaration)
    else if keyword = .atom Word.defineInline then (inlineToMacro (.pair keyword declaration)).toOption
    else none
  | .atom _ => none

/-- Whether an item declares a function or a constant. -/
def isFree : SExp → Bool
  | .pair keyword _ => keyword = .atom Word.defineFunction || keyword = .atom Word.defineConstant
  | .atom _ => false

section Entries
variable {keyword keyword' : Bytes} {read read' : SExp → Option SExp} {x : SExp} {e : Option Bytes × SExp}

theorem entryOf?_eq_some (h : entryOf? keyword read x = some e) :
    ∃ name declaration, x = .pair (.atom keyword) (.pair name declaration) ∧ e.1 = name.bytes? ∧
      read declaration = some e.2 := by
  fun_cases entryOf? keyword read x with
  | case1 name declaration =>
    rw [entryOf?, if_pos rfl, Option.map_eq_some_iff] at h
    obtain ⟨t, ht, rfl⟩ := h
    exact ⟨name, declaration, rfl, rfl, ht⟩
  | case2 word name declaration hword =>
    rw [entryOf?, if_neg hword] at h
    cases h
  | case3 x hx =>
    rw [entryOf?] at h
    · cases h
    · exact hx

theorem nameOf_of_entryOf? (h : entryOf? keyword read x = some e) : e.1 = nameOf x := by
  obtain ⟨name, declaration, rfl, hname, -⟩ := entryOf?_eq_some h
  exact hname

theorem entryOf?_eq_none (hne : keyword ≠ keyword') (declaration : SExp) :
    entryOf? keyword' read' (.pair (.atom keyword) declaration) = none := by
  cases declaration with
  | atom b => rfl
  | pair name declaration => exact if_neg hne

end Entries

theorem nameOf_inlineToMacro {x m : SExp} (h : inlineToMacro x = .ok m) : nameOf m = nameOf x := by
  cases x with
  | atom b => cases h
  | pair keyword declaration =>
    cases declaration with
    | atom b => cases h
    | pair name signature =>
      cases signature with
      | atom b => cases h
      | pair parameters bodies =>
        cases bodies with
        | atom b => cases h
        | pair body more =>
          cases h
          rfl

theorem nameOf_of_macroOf? {x m : SExp} (h : macroOf? x = some m) : nameOf m = nameOf x := by
  rw [macroOf?.eq_def] at h
  split at h
  · split at h
    · cases h
      rfl
    · split at h
      · cases hm : inlineToMacro (SExp.pair _ _) with
        | error e =>
          rw [hm] at h
          cases h
        | ok m' =>
          rw [hm] at h
          cases h
          exact nameOf_inlineToMacro hm
      · cases h
  · cases h

theorem constantOf?_of_functionOf? {x : SExp} {e : Option Bytes × SExp} (h : functionOf? x = some e) :
    constantOf? x = none := by
  obtain ⟨name, declaration, rfl, -, -⟩ := entryOf?_eq_some h
  exact entryOf?_eq_none (by decide) _

/-- The program of a constant is its value, quoted. -/
theorem constantOf?_snd {x : SExp} {e : Option Bytes × SExp} (h : constantOf? x = some e) : ∃ v, e.2 = Form.quote v := by
  obtain ⟨name, declaration, -, -, hprogram⟩ := entryOf?_eq_some h
  cases declaration with
  | atom b => cases hprogram
  | pair v more => exact ⟨v, (Option.some.inj hprogram).symm⟩

theorem macroOf?_of_isFree {x : SExp} (h : isFree x = true) : macroOf? x = none := by
  cases x with
  | atom b => rfl
  | pair keyword declaration =>
    simp only [isFree, Bool.or_eq_true, decide_eq_true_eq] at h
    rcases h with rfl | rfl <;> rfl

/-! ### Tables -/

theorem isSome_lookup_iff {table : Named} {name : Option Bytes} :
    (table.lookup name).isSome = true ↔ name ∈ table.map (·.1) := by
  simp only [List.lookup_isSome_iff, List.mem_map, beq_iff_eq, eq_comm (a := name)]

theorem put_of_not_mem {table : Named} {name : Option Bytes} (h : name ∉ table.map (·.1)) (t : SExp) :
    table.put name t = table ++ [(name, t)] := by
  rw [Named.put, if_neg (mt isSome_lookup_iff.mp h)]

/-- Declarations that list what some items declare. -/
structure Tabulates (d : Declarations) (xs : List SExp) : Prop where
  names : d.names = (xs.map nameOf).reverse
  nodup : (xs.map nameOf).Nodup
  functions : d.functions = xs.filterMap functionOf?
  constants : d.constants = xs.filterMap constantOf?
  macros : d.macros = xs.filterMap macroOf?

theorem map_filterMap_sublist {α β γ : Type} {f : α → Option β} {key : β → γ} {name : α → γ}
    (h : ∀ x e, f x = some e → key e = name x) (xs : List α) : ((xs.filterMap f).map key).Sublist (xs.map name) := by
  induction xs with
  | nil => exact .slnil
  | cons x xs ih =>
    cases hx : f x with
    | none =>
      rw [List.filterMap_cons_none hx]
      exact ih.cons _
    | some e =>
      rw [List.filterMap_cons_some hx, List.map_cons, List.map_cons, h x e hx]
      exact ih.cons_cons _

theorem functionNames_sublist (xs : List SExp) : ((xs.filterMap functionOf?).map (·.1)).Sublist (xs.map nameOf) :=
  map_filterMap_sublist (fun _ _ => nameOf_of_entryOf?) xs

theorem constantNames_sublist (xs : List SExp) : ((xs.filterMap constantOf?).map (·.1)).Sublist (xs.map nameOf) :=
  map_filterMap_sublist (fun _ _ => nameOf_of_entryOf?) xs

theorem macroNames_sublist (xs : List SExp) : ((xs.filterMap macroOf?).map nameOf).Sublist (xs.map nameOf) :=
  map_filterMap_sublist (fun _ _ => nameOf_of_macroOf?) xs

/-- Adds what an item declares. -/
def Declarations.addItem (d : Declarations) (x : SExp) : Except Error Declarations := do
  d.add (← x.first) (← (← x.rest).first) x

theorem addItem_pair (d : Declarations) (keyword name declaration : SExp) :
    d.addItem (.pair keyword (.pair name declaration)) = d.add keyword name (.pair keyword (.pair name declaration)) := rfl

theorem reserve_eq_ok {d d' : Declarations} {name : Option Bytes} (h : d.reserve name = .ok d') :
    name ∉ d.names ∧ d' = { d with names := name :: d.names } := by
  rw [Declarations.reserve.eq_def] at h
  split at h
  · cases name with
    | none => cases h
    | some b =>
      dsimp only at h
      split at h <;> cases h
  · rename_i hfresh
    cases h
    exact ⟨fun hmem => hfresh (List.contains_iff_mem.mpr hmem), rfl⟩

theorem filterMap_snoc {α β : Type} (f : α → Option β) (xs : List α) (x : α) :
    (xs ++ [x]).filterMap f = xs.filterMap f ++ (f x).toList := by
  cases hx : f x <;> simp [hx]

/-- One more item, whose name is new. -/
theorem Tabulates.snoc {d d' : Declarations} {xs : List SExp} {x : SExp} (hd : Tabulates d xs)
    (hfresh : nameOf x ∉ d.names) (hnames : d'.names = nameOf x :: d.names)
    (hfunctions : d'.functions = d.functions ++ (functionOf? x).toList)
    (hconstants : d'.constants = d.constants ++ (constantOf? x).toList)
    (hmacros : d'.macros = d.macros ++ (macroOf? x).toList) : Tabulates d' (xs ++ [x]) := by
  rw [hd.names, List.mem_reverse] at hfresh
  refine ⟨?_, ?_, ?_, ?_, ?_⟩
  · rw [hnames, hd.names, List.map_append, List.reverse_append]
    rfl
  · rw [List.map_append, List.nodup_append]
    refine ⟨hd.nodup, List.nodup_singleton _, ?_⟩
    rintro a ha b hb rfl
    exact hfresh (List.mem_singleton.mp hb ▸ ha)
  · rw [hfunctions, hd.functions, filterMap_snoc]
  · rw [hconstants, hd.constants, filterMap_snoc]
  · rw [hmacros, hd.macros, filterMap_snoc]

theorem tabulates_add {d d' : Declarations} {xs : List SExp} {keyword name declaration : SExp} (hd : Tabulates d xs)
    (h : d.add keyword name (.pair keyword (.pair name declaration)) = .ok d') :
    Tabulates d' (xs ++ [.pair keyword (.pair name declaration)]) := by
  rw [Declarations.add] at h
  cases hreserve : d.reserve name.bytes? with
  | error e =>
    rw [hreserve] at h
    cases h
  | ok d₁ =>
    obtain ⟨hfresh, rfl⟩ := reserve_eq_ok hreserve
    have hnew : name.bytes? ∉ xs.map nameOf := by
      rw [hd.names, List.mem_reverse] at hfresh
      exact hfresh
    rw [hreserve] at h
    simp only [bind, Except.bind] at h
    have hother : ∀ {word : Bytes}, word ≠ Word.defineConstant → d.constants =
        d.constants ++ (constantOf? (.pair (.atom word) (.pair name declaration))).toList := by
      intro word hword
      rw [constantOf?, entryOf?_eq_none hword]
      exact (List.append_nil _).symm
    split at h
    · subst keyword
      cases h
      exact hd.snoc hfresh rfl (List.append_nil _).symm (hother (by decide)) rfl
    · split at h
      · subst keyword
        cases h
        refine hd.snoc hfresh rfl ?_ (hother (by decide)) (List.append_nil _).symm
        refine put_of_not_mem (fun hmem => hnew ((functionNames_sublist xs).subset ?_)) declaration
        rwa [hd.functions] at hmem
      · split at h
        · subst keyword
          cases hm : inlineToMacro (.pair (.atom Word.defineInline) (.pair name declaration)) with
          | error e =>
            rw [hm] at h
            cases h
          | ok m =>
            rw [hm] at h
            cases h
            refine hd.snoc hfresh rfl (List.append_nil _).symm (hother (by decide)) ?_
            rw [macroOf?, if_neg (by decide), if_pos rfl, hm]
            rfl
        · split at h
          · subst keyword
            cases declaration with
            | atom b => cases h
            | pair v more =>
              cases h
              refine hd.snoc hfresh rfl (List.append_nil _).symm ?_ (List.append_nil _).symm
              refine put_of_not_mem (fun hmem => hnew ((constantNames_sublist xs).subset ?_)) (Form.quote v)
              rwa [hd.constants] at hmem
          · cases h

theorem tabulates_addItem {d d' : Declarations} {xs : List SExp} {x : SExp} (hd : Tabulates d xs)
    (h : d.addItem x = .ok d') : Tabulates d' (xs ++ [x]) := by
  cases x with
  | atom b => cases h
  | pair keyword declaration =>
    cases declaration with
    | atom b => cases h
    | pair name declaration => exact tabulates_add hd h

theorem tabulates_foldlM {d d' : Declarations} {xs ys : List SExp} (hd : Tabulates d xs)
    (h : ys.foldlM Declarations.addItem d = .ok d') : Tabulates d' (xs ++ ys) := by
  induction ys generalizing d xs with
  | nil =>
    cases h
    rwa [List.append_nil]
  | cons y ys ih =>
    rw [List.foldlM_cons] at h
    cases hy : d.addItem y with
    | error e =>
      rw [hy] at h
      cases h
    | ok d₁ =>
      rw [hy] at h
      rw [List.append_cons]
      exact ih (tabulates_addItem hd hy) h

theorem tabulates_empty : Tabulates .empty [] := ⟨rfl, List.nodup_nil, rfl, rfl, rfl⟩

/-! ### Inclusions -/

/-- The items that an item stands for: itself, or all those of the file that it includes. -/
def expand (run : Runner) : Nat → SExp → Action Session (List SExp)
  | 0, _ => throw .outOfFuel
  | fuel + 1, x => do
    let keyword ← x.first
    let name ← (← x.rest).first
    if keyword = .atom Word.includeFile then
      let (_, content) ← run includeProgram name
      let xss ← content.items.mapM (expand run fuel)
      content.checkProper
      return xss.flatten
    else return [x]

section Expansion
variable {run : Runner} {fuel : Nat}

theorem declare_pair (d : Declarations) (keyword name declaration : SExp) :
    declare run (fuel + 1) d (.pair keyword (.pair name declaration)) =
      if keyword = .atom Word.includeFile then do
        let (_, content) ← run includeProgram name
        let d ← content.items.foldlM (declare run fuel) d
        content.checkProper
        return d
      else Action.ofExcept (d.add keyword name (.pair keyword (.pair name declaration))) := rfl

theorem expand_pair (keyword name declaration : SExp) :
    expand run (fuel + 1) (.pair keyword (.pair name declaration)) =
      if keyword = .atom Word.includeFile then do
        let (_, content) ← run includeProgram name
        let xss ← content.items.mapM (expand run fuel)
        content.checkProper
        return xss.flatten
      else return [.pair keyword (.pair name declaration)] := rfl

/-- Declaring adds what items stand for. -/
def ExpandsFirst (run : Runner) (fuel : Nat) : Prop := ∀ d x s d' s', declare run fuel d x s = .ok d' s' →
  ∃ xs, expand run fuel x s = .ok xs s' ∧ xs.foldlM Declarations.addItem d = .ok d'

theorem foldlM_declare (hfuel : ExpandsFirst run fuel) {items : List SExp} {d d' : Declarations} {s s' : Session}
    (h : items.foldlM (declare run fuel) d s = .ok d' s') :
    ∃ xss, items.mapM (expand run fuel) s = .ok xss s' ∧ xss.flatten.foldlM Declarations.addItem d = .ok d' := by
  induction items generalizing d s with
  | nil =>
    obtain ⟨rfl, rfl⟩ := Action.pure_eq_ok.mp h
    exact ⟨[], rfl, rfl⟩
  | cons x items ih =>
    rw [List.foldlM_cons] at h
    obtain ⟨d₁, s₁, hx, h⟩ := Action.bind_eq_ok.mp h
    obtain ⟨xs, hxs, hadd⟩ := hfuel d x s d₁ s₁ hx
    obtain ⟨xss, hxss, hrest⟩ := ih h
    refine ⟨xs :: xss, ?_, ?_⟩
    · rw [List.mapM_cons]
      exact Action.bind_eq_ok.mpr ⟨xs, s₁, hxs, Action.bind_eq_ok.mpr ⟨xss, s', hxss, rfl⟩⟩
    · rw [List.flatten_cons, List.foldlM_append, hadd]
      exact hrest

theorem expandsFirst (fuel : Nat) : ExpandsFirst run fuel := by
  induction fuel with
  | zero =>
    intro d x s d' s' h
    cases h
  | succ fuel ih =>
    intro d x s d' s' h
    cases x with
    | atom b => cases h
    | pair keyword declaration =>
      cases declaration with
      | atom b => cases h
      | pair name declaration =>
        rw [declare_pair] at h
        rw [expand_pair]
        split at h
        · rename_i hinclude
          obtain ⟨⟨cost, content⟩, s₁, hcontent, h⟩ := Action.bind_eq_ok.mp h
          obtain ⟨d₁, s₂, hitems, h⟩ := Action.bind_eq_ok.mp h
          obtain ⟨_, s₃, hproper, h⟩ := Action.bind_eq_ok.mp h
          obtain ⟨rfl, rfl⟩ := Action.pure_eq_ok.mp h
          obtain ⟨xss, hxss, hadd⟩ := foldlM_declare ih hitems
          refine ⟨xss.flatten, ?_, hadd⟩
          rw [if_pos hinclude]
          refine Action.bind_eq_ok.mpr ⟨_, s₁, hcontent, Action.bind_eq_ok.mpr ⟨xss, s₂, hxss, ?_⟩⟩
          exact Action.bind_eq_ok.mpr ⟨_, s₃, hproper, rfl⟩
        · rename_i hinclude
          obtain ⟨hadd, rfl⟩ := Action.ofExcept_eq_ok.mp h
          refine ⟨[.pair keyword (.pair name declaration)], ?_, ?_⟩
          · rw [if_neg hinclude]
            rfl
          · rw [List.foldlM_cons, addItem_pair, hadd]
            rfl

/-- A function or a constant stands for itself and does not act on the session. -/
theorem expand_of_isFree {x : SExp} {xs : List SExp} {s s' : Session} (hx : isFree x = true)
    (h : expand run fuel x s = .ok xs s') : xs = [x] ∧ s = s' := by
  cases fuel with
  | zero => cases h
  | succ fuel =>
    cases x with
    | atom b => cases h
    | pair keyword declaration =>
      cases declaration with
      | atom b => cases h
      | pair name declaration =>
        have hinclude : keyword ≠ .atom Word.includeFile := by
          simp only [isFree, Bool.or_eq_true, decide_eq_true_eq] at hx
          rcases hx with rfl | rfl <;> decide
        rw [expand_pair, if_neg hinclude] at h
        obtain ⟨rfl, rfl⟩ := Action.pure_eq_ok.mp h
        exact ⟨rfl, rfl⟩

/-- Among other items, functions and constants leave what these stand for as it is. -/
theorem mapM_expand {items : List SExp} {xss : List (List SExp)} {s s' : Session}
    (h : items.mapM (expand run fuel) s = .ok xss s') :
    ∃ yss, (items.filter (!isFree ·)).mapM (expand run fuel) s = .ok yss s' ∧
      xss.flatten.Perm (items.filter isFree ++ yss.flatten) ∧
      xss.flatten.filterMap macroOf? = yss.flatten.filterMap macroOf? := by
  induction items generalizing s xss with
  | nil =>
    obtain ⟨rfl, rfl⟩ := Action.pure_eq_ok.mp h
    exact ⟨[], rfl, .nil, rfl⟩
  | cons x items ih =>
    rw [List.mapM_cons] at h
    obtain ⟨xs, s₁, hx, h⟩ := Action.bind_eq_ok.mp h
    obtain ⟨xss, s₂, hitems, h⟩ := Action.bind_eq_ok.mp h
    obtain ⟨rfl, rfl⟩ := Action.pure_eq_ok.mp h
    obtain ⟨yss, hyss, hperm, hmacros⟩ := ih hitems
    cases hfree : isFree x with
    | true =>
      obtain ⟨rfl, rfl⟩ := expand_of_isFree hfree hx
      refine ⟨yss, ?_, ?_, ?_⟩
      · rwa [List.filter_cons_of_neg (by simp [hfree])]
      · rw [List.filter_cons_of_pos hfree]
        exact hperm.cons x
      · rw [List.flatten_cons, List.filterMap_append, hmacros]
        simp [macroOf?_of_isFree hfree]
    | false =>
      refine ⟨xs :: yss, ?_, ?_, ?_⟩
      · rw [List.filter_cons_of_pos (by simp [hfree]), List.mapM_cons]
        exact Action.bind_eq_ok.mpr ⟨xs, s₁, hx, Action.bind_eq_ok.mpr ⟨yss, s₂, hyss, rfl⟩⟩
      · rw [List.filter_cons_of_neg (by simp [hfree]), List.flatten_cons, List.flatten_cons]
        exact (hperm.append_left xs).trans (List.perm_append_comm_assoc ..)
      · rw [List.flatten_cons, List.flatten_cons, List.filterMap_append, List.filterMap_append, hmacros]

end Expansion

/-! ### Modules -/

/-- The operands of a module with parameters, items and a main expression. -/
def moduleSource (parameters : SExp) (items : List SExp) (main : SExp) : SExp :=
  .pair parameters (.ofList (items ++ [main]))

theorem declareAll_ofList (run : Runner) (fuel : Nat) (d : Declarations) (items : List SExp) (main : SExp) :
    declareAll run fuel d (.ofList (items ++ [main])) = do return (← items.foldlM (declare run fuel) d, main) := by
  induction items generalizing d with
  | nil => rfl
  | cons x items ih =>
    obtain ⟨y, more, hmore⟩ : ∃ y more, SExp.ofList (items ++ [main]) = .pair y more := by
      cases items with
      | nil => exact ⟨_, _, rfl⟩
      | cons y items => exact ⟨_, _, rfl⟩
    have hcons : SExp.ofList (x :: items ++ [main]) = .pair x (.ofList (items ++ [main])) := rfl
    rw [hcons, hmore, declareAll, ← hmore, List.foldlM_cons]
    simp only [ih, bind_assoc]
    exact nofun

/-- Declarations that list what some items declare, with a main expression as the last function. -/
structure Declares (d : Declarations) (main : SExp) (xs : List SExp) : Prop where
  table : Tabulates { d with functions := xs.filterMap functionOf? } xs
  functions : d.functions = xs.filterMap functionOf? ++ [(some mainName, main)]

section
variable {d : Declarations} {main : SExp} {xs : List SExp} (h : Declares d main xs)
include h

theorem Declares.names : d.names = (xs.map nameOf).reverse := h.table.names

theorem Declares.nodup : (xs.map nameOf).Nodup := h.table.nodup

theorem Declares.constants : d.constants = xs.filterMap constantOf? := h.table.constants

theorem Declares.macros : d.macros = xs.filterMap macroOf? := h.table.macros

end

/-- Functions and constants are declared wherever they stand among the items of a module, and the others do not depend on
where that is. -/
theorem collect_eq_ok {run : Runner} {fuel : Nat} {parameters main : SExp} {items : List SExp} {d : Declarations}
    {s s' : Session} (h : collect run fuel (moduleSource parameters items main) s = .ok d s')
    (hmain : some mainName ∉ d.names) :
    ∃ yss xs, (items.filter (!isFree ·)).mapM (expand run fuel) s = .ok yss s' ∧
      xs.Perm (items.filter isFree ++ yss.flatten) ∧ xs.filterMap macroOf? = yss.flatten.filterMap macroOf? ∧
      Declares d (.ofList [parameters, main]) xs := by
  obtain ⟨_, s₁, hparameters, h⟩ := Action.bind_eq_ok.mp h
  obtain ⟨⟨⟩, rfl⟩ := Action.lift_eq_ok.mp hparameters
  obtain ⟨_, s₂, hrest, h⟩ := Action.bind_eq_ok.mp h
  obtain ⟨⟨⟩, rfl⟩ := Action.lift_eq_ok.mp hrest
  obtain ⟨⟨d₀, m⟩, s₃, hall, h⟩ := Action.bind_eq_ok.mp h
  obtain ⟨rfl, rfl⟩ := Action.pure_eq_ok.mp h
  rw [declareAll_ofList] at hall
  obtain ⟨d₁, s₄, hitems, hall⟩ := Action.bind_eq_ok.mp hall
  obtain ⟨⟨⟩, rfl⟩ := Action.pure_eq_ok.mp hall
  obtain ⟨xss, hxss, hadd⟩ := foldlM_declare (expandsFirst fuel) hitems
  obtain ⟨yss, hyss, hperm, hmacros⟩ := mapM_expand hxss
  have htable := tabulates_foldlM tabulates_empty hadd
  rw [List.nil_append] at htable
  refine ⟨yss, xss.flatten, hyss, hperm, hmacros, ⟨htable.names, htable.nodup, rfl, htable.constants, htable.macros⟩, ?_⟩
  rw [put_of_not_mem, htable.functions]
  intro hmem
  rw [htable.functions] at hmem
  refine hmain ?_
  rw [htable.names, List.mem_reverse]
  exact (functionNames_sublist _).subset hmem

end Clvm.Compiler
