import Clvm.Proofs.Compiler.Inclusion
import Mathlib.Data.List.Duplicate

/-!
# The names of a module

Functions, constants and macros share one set of names. An item is added if it declares something and its name is new, so the
tables of a module divide the declared names among themselves (`Separates`). If all items declare something, the only way to
fail is to declare a name twice, be it in the module or in files that it includes.
-/

namespace Clvm.Compiler

/-! ### Adding one declaration -/

/-- An item that declares something. After its name an inline function has parameters and a body, and a constant has a
value. -/
inductive IsDeclaration : SExp → Prop where
  | function (name more : SExp) : IsDeclaration (.pair (.atom Word.defineFunction) (.pair name more))
  | definition (name more : SExp) : IsDeclaration (.pair (.atom Word.defineMacro) (.pair name more))
  | inline (name parameters body more : SExp) :
      IsDeclaration (.pair (.atom Word.defineInline) (.pair name (.pair parameters (.pair body more))))
  | constant (name v more : SExp) : IsDeclaration (.pair (.atom Word.defineConstant) (.pair name (.pair v more)))

/-- A declaration of a name that is text. -/
def IsWellFormed (x : SExp) : Prop :=
  IsDeclaration x ∧ ∃ b text, nameOf x = some b ∧ Text.Utf8.decode? b = some text

theorem nameOf_pair (keyword name more : SExp) : nameOf (.pair keyword (.pair name more)) = name.bytes? := rfl

section Adding
variable {d d' : Declarations} {x : SExp}

theorem reserve_of_not_mem {name : Option Bytes} (h : name ∉ d.names) :
    d.reserve name = .ok { d with names := name :: d.names } := by
  rw [Declarations.reserve.eq_def, if_neg (mt List.contains_iff_mem.mp h)]

theorem reserve_of_mem {b : Bytes} {text : List Char} (h : some b ∈ d.names) (htext : Text.Utf8.decode? b = some text) :
    d.reserve (some b) = .error (.source (.redefined text)) := by
  rw [Declarations.reserve, if_pos (List.contains_iff_mem.mpr h)]
  simp only [htext]

/-- Once its name is noted, nothing about a declaration can fail. -/
theorem IsDeclaration.addItem_eq (h : IsDeclaration x) (d : Declarations) :
    ∃ enter : Declarations → Declarations, d.addItem x = enter <$> d.reserve (nameOf x) := by
  cases h with
  | function name more =>
    refine ⟨fun r => { r with functions := r.functions.put name.bytes? more }, ?_⟩
    rw [addItem_pair, nameOf_pair, Declarations.add]
    cases d.reserve name.bytes? <;> rfl
  | definition name more =>
    refine ⟨fun r => { r with macros := r.macros ++ [.pair (.atom Word.defineMacro) (.pair name more)] }, ?_⟩
    rw [addItem_pair, nameOf_pair, Declarations.add]
    cases d.reserve name.bytes? <;> rfl
  | inline name parameters body more =>
    obtain ⟨m, hm⟩ : ∃ m, inlineToMacro
        (.pair (.atom Word.defineInline) (.pair name (.pair parameters (.pair body more)))) = .ok m := ⟨_, rfl⟩
    refine ⟨fun r => { r with macros := r.macros ++ [m] }, ?_⟩
    rw [addItem_pair, nameOf_pair, Declarations.add, hm]
    cases d.reserve name.bytes? <;> rfl
  | constant name v more =>
    refine ⟨fun r => { r with constants := r.constants.put name.bytes? (Form.quote v) }, ?_⟩
    rw [addItem_pair, nameOf_pair, Declarations.add]
    cases d.reserve name.bytes? <;> rfl

theorem IsDeclaration.exists_addItem (h : IsDeclaration x) (hfresh : nameOf x ∉ d.names) : ∃ d', d.addItem x = .ok d' := by
  obtain ⟨enter, henter⟩ := h.addItem_eq d
  rw [henter, reserve_of_not_mem hfresh]
  exact ⟨_, rfl⟩

theorem IsDeclaration.addItem_redefined (h : IsDeclaration x) {b : Bytes} {text : List Char} (hname : nameOf x = some b)
    (htext : Text.Utf8.decode? b = some text) (hmem : nameOf x ∈ d.names) :
    d.addItem x = .error (.source (.redefined text)) := by
  obtain ⟨enter, henter⟩ := h.addItem_eq d
  rw [hname] at henter hmem
  rw [henter, reserve_of_mem hmem htext]
  rfl

theorem isDeclaration_of_addItem (h : d.addItem x = .ok d') : IsDeclaration x := by
  rcases x with _ | ⟨keyword, _ | ⟨name, more⟩⟩
  · cases h
  · cases h
  · rw [addItem_pair, Declarations.add] at h
    cases hreserve : d.reserve name.bytes? with
    | error e =>
      rw [hreserve] at h
      cases h
    | ok r =>
      rw [hreserve] at h
      simp only [bind, Except.bind] at h
      split_ifs at h with hmacro hfunction hinline hconstant
      · exact hmacro ▸ .definition name more
      · exact hfunction ▸ .function name more
      · subst hinline
        rcases more with _ | ⟨parameters, _ | ⟨body, more⟩⟩
        · cases h
        · cases h
        · exact .inline name parameters body more
      · subst hconstant
        rcases more with _ | ⟨v, more⟩
        · cases h
        · exact .constant name v more

end Adding

/-! ### Adding one after the other -/

section Run
variable {d d' : Declarations} {xs ys : List SExp}

theorem isDeclaration_of_foldlM (h : ys.foldlM Declarations.addItem d = .ok d') : ∀ y ∈ ys, IsDeclaration y := by
  induction ys generalizing d with
  | nil => exact nofun
  | cons y ys ih =>
    rw [List.foldlM_cons] at h
    cases hy : d.addItem y with
    | error e =>
      rw [hy] at h
      cases h
    | ok d₁ =>
      rw [hy] at h
      exact List.forall_mem_cons.mpr ⟨isDeclaration_of_addItem hy, ih h⟩

/-- Adding goes on until a name comes that was there before. -/
theorem foldlM_addItem_cases (hd : Tabulates d xs) (hys : ∀ y ∈ ys, IsWellFormed y) :
    (((xs ++ ys).map nameOf).Nodup ∧ ∃ d', ys.foldlM Declarations.addItem d = .ok d') ∨
    ∃ b text, List.Duplicate (some b) ((xs ++ ys).map nameOf) ∧ Text.Utf8.decode? b = some text ∧
      ys.foldlM Declarations.addItem d = .error (.source (.redefined text)) := by
  induction ys generalizing d xs with
  | nil =>
    rw [List.append_nil]
    exact .inl ⟨hd.nodup, d, rfl⟩
  | cons y ys ih =>
    obtain ⟨⟨hy, b, text, hname, htext⟩, hys⟩ := List.forall_mem_cons.mp hys
    rw [List.foldlM_cons]
    by_cases hmem : nameOf y ∈ d.names
    · refine .inr ⟨b, text, ?_, htext, ?_⟩
      · rw [hd.names, List.mem_reverse, hname] at hmem
        rw [List.map_append, List.map_cons, hname, List.duplicate_iff_sublist]
        exact (List.singleton_sublist.mpr hmem).append ((List.nil_sublist _).cons_cons (some b))
      · rw [hy.addItem_redefined hname htext hmem]
        rfl
    · obtain ⟨d₁, hd₁⟩ := hy.exists_addItem hmem
      rw [hd₁, List.append_cons]
      exact ih (tabulates_addItem hd hd₁) hys

end Run

/-! ### Tables -/

def Declarations.functionNames (d : Declarations) : List (Option Bytes) := d.functions.map (·.1)

def Declarations.constantNames (d : Declarations) : List (Option Bytes) := d.constants.map (·.1)

def Declarations.macroNames (d : Declarations) : List (Option Bytes) := d.macros.map nameOf

/-- Tables of some declarations that have no name in common. -/
structure Separates (d : Declarations) (xs : List SExp) : Prop extends Tabulates d xs where
  functions_constants : d.functionNames.Disjoint d.constantNames
  functions_macros : d.functionNames.Disjoint d.macroNames
  constants_macros : d.constantNames.Disjoint d.macroNames
  /-- A declared name is in exactly one of them. -/
  declared : ∀ name ∈ xs.map nameOf,
    (name ∈ d.functionNames ∧ name ∉ d.constantNames ∧ name ∉ d.macroNames) ∨
    (name ∉ d.functionNames ∧ name ∈ d.constantNames ∧ name ∉ d.macroNames) ∨
    (name ∉ d.functionNames ∧ name ∉ d.constantNames ∧ name ∈ d.macroNames)
  macros_nodup : d.macroNames.Nodup
  macros_ordered : d.macroNames.Sublist (xs.map nameOf)
  /-- The noted names are those of all three. -/
  union : ∀ name, name ∈ d.names ↔ name ∈ d.functionNames ∨ name ∈ d.constantNames ∨ name ∈ d.macroNames

/-- Every declaration has its name in one table. -/
theorem names_perm {xs : List SExp} (h : ∀ x ∈ xs, IsDeclaration x) :
    (xs.map nameOf).Perm ((xs.filterMap functionOf?).map (·.1) ++
      ((xs.filterMap constantOf?).map (·.1) ++ (xs.filterMap macroOf?).map nameOf)) := by
  induction xs with
  | nil => exact .nil
  | cons x xs ih =>
    obtain ⟨hx, hxs⟩ := List.forall_mem_cons.mp h
    have hperm := (ih hxs).cons (nameOf x)
    cases hx with
    | function name more => exact hperm
    | constant name v more => exact hperm.trans List.perm_middle.symm
    | definition name more =>
      exact hperm.trans (List.perm_middle.symm.trans (List.perm_middle.symm.append_left _))
    | inline name parameters body more =>
      exact hperm.trans (List.perm_middle.symm.trans (List.perm_middle.symm.append_left _))

theorem Tabulates.separates {d : Declarations} {xs : List SExp} (hd : Tabulates d xs) (h : ∀ x ∈ xs, IsDeclaration x) :
    Separates d xs := by
  have hperm : (xs.map nameOf).Perm (d.functionNames ++ (d.constantNames ++ d.macroNames)) := by
    rw [Declarations.functionNames, Declarations.constantNames, Declarations.macroNames, hd.functions, hd.constants, hd.macros]
    exact names_perm h
  obtain ⟨-, hrest, hfunctions⟩ := List.nodup_append'.mp (hperm.nodup hd.nodup)
  obtain ⟨-, hmacros, hconstants⟩ := List.nodup_append'.mp hrest
  obtain ⟨hfc, hfm⟩ := List.disjoint_append_right.mp hfunctions
  have hmem : ∀ name, name ∈ xs.map nameOf ↔
      name ∈ d.functionNames ∨ name ∈ d.constantNames ∨ name ∈ d.macroNames := by
    intro name
    rw [hperm.mem_iff, List.mem_append, List.mem_append]
  refine ⟨hd, hfc, hfm, hconstants, ?_, hmacros, ?_, ?_⟩
  · intro name hname
    rcases (hmem name).mp hname with hf | hc | hm
    · exact .inl ⟨hf, fun hc => hfc hf hc, fun hm => hfm hf hm⟩
    · exact .inr (.inl ⟨fun hf => hfc hf hc, hc, fun hm => hconstants hc hm⟩)
    · exact .inr (.inr ⟨fun hf => hfm hf hm, fun hc => hconstants hc hm, hm⟩)
  · rw [Declarations.macroNames, hd.macros]
    exact macroNames_sublist xs
  · intro name
    rw [hd.names, List.mem_reverse, hmem]

/-! ### Declaring items -/

/-- Declaring the items of a module notes every name once. If it succeeds, the items stand for declarations, and the tables
of functions, of constants and of macros divide the names of these among themselves. If the files that are included can be
read, at whatever depth, and all declarations are well formed, it fails just when a name is declared twice, and tells which.
The bounds on `fuel` and `levels` are what it takes to get to all files and to read them. -/
theorem declared_names_disjoint [Curve] (settings : Settings) (levels fuel : Nat) (items : List SExp) (s : Session) :
    (∀ d s', items.foldlM (declare (runner settings levels) fuel) .empty s = .ok d s' →
      (∃ xs, StandFor settings.search s.store fuel items xs) ∧
      ∀ depth xs, StandFor settings.search s.store depth items xs → Separates d xs) ∧
    ∀ depth xs, StandFor settings.search s.store depth items xs → (∀ x ∈ xs, IsWellFormed x) → depth < fuel → 12 ≤ levels →
      ((∃ e s', items.foldlM (declare (runner settings levels) fuel) .empty s = .error e s') ↔
        ∃ name, List.Duplicate name (xs.map nameOf)) ∧
      ∀ e s', items.foldlM (declare (runner settings levels) fuel) .empty s = .error e s' →
        ∃ b text, List.Duplicate (some b) (xs.map nameOf) ∧ Text.Utf8.decode? b = some text ∧
          e = .source (.redefined text) := by
  constructor
  · intro d s' h
    obtain ⟨xss, hxss, hadd⟩ := foldlM_declare (expandsFirst fuel) h
    obtain ⟨-, hstand⟩ := standFor_of_mapM_expand hxss
    refine ⟨⟨xss.flatten, hstand⟩, fun depth xs hxs => ?_⟩
    rw [hxs.unique hstand]
    exact (tabulates_foldlM tabulates_empty hadd).separates (isDeclaration_of_foldlM hadd)
  · intro depth xs hstand hxs hfuel hlevels
    rw [foldlM_declare_eq hlevels hstand hfuel]
    rcases foldlM_addItem_cases tabulates_empty hxs with ⟨hnodup, d, hd⟩ | ⟨b, text, hname, htext, herror⟩
    · rw [hd]
      refine ⟨⟨?_, fun hname => absurd hnodup (List.exists_duplicate_iff_not_nodup.mp hname)⟩, nofun⟩
      rintro ⟨e, s', h⟩
      cases h
    · rw [herror]
      refine ⟨⟨fun _ => ⟨some b, hname⟩, fun _ => ⟨_, _, rfl⟩⟩, fun e s' h => ?_⟩
      cases h
      exact ⟨b, text, hname, htext, rfl⟩

namespace Nested

/-- A file that includes another. -/
def store : Store :=
  ⟨[(["a"], ⟨"((include b) (defconstant k 7))", 0⟩), (["b"], ⟨"((defun-inline g (y) y))", 0⟩)], [], Store.presentTime⟩

def settings : Settings := ⟨["."], .ok .nil⟩

def including (name : Bytes) : SExp := .ofList [.atom Word.includeFile, .atom name]

def inlineG : SExp := .ofList [.atom Word.defineInline, .atom [103], .ofList [.atom [121]], .atom [121]]

def constantK : SExp := .ofList [.atom Word.defineConstant, .atom [107], .atom [7]]

theorem fileHolds_a : FileHolds settings.search store (.atom [97]) (.ofList [including [98], constantK]) :=
  ⟨[97], ['a'], "a", _, rfl, by decide, by decide, rfl, by decide +kernel⟩

theorem fileHolds_b : FileHolds settings.search store (.atom [98]) (.ofList [inlineG]) :=
  ⟨[98], ['b'], "b", _, rfl, by decide, by decide, rfl, by decide +kernel⟩

theorem standFor_b {depth : Nat} {items xs : List SExp} (h : StandFor settings.search store (depth + 1) items xs) :
    StandFor settings.search store (depth + 1) (including [98] :: items) (inlineG :: xs) :=
  .inclusion fileHolds_b (.declaration (by decide) _ _ (.nil depth)) _ h

theorem standFor_a {items xs : List SExp} (h : StandFor settings.search store 2 items xs) :
    StandFor settings.search store 2 (including [97] :: items) (inlineG :: constantK :: xs) :=
  .inclusion fileHolds_a (standFor_b (.declaration (by decide) _ _ (.nil 1))) _ h

theorem isWellFormed_inlineG : IsWellFormed inlineG := ⟨.inline _ _ _ _, [103], ['g'], rfl, by decide⟩

theorem isWellFormed_constantK : IsWellFormed constantK := ⟨.constant _ _ _, [107], ['k'], rfl, by decide⟩

/-- The first file is declared with the one inside it. To include this one again is to declare its name twice. -/
theorem declared_names_disjoint_nested :
    StandFor settings.search store 2 [including [97]] [inlineG, constantK] ∧
    (∃ d s', [including [97]].foldlM (declare (runner settings 12) 3) .empty (.start store) = .ok d s' ∧
      Separates d [inlineG, constantK]) ∧
    StandFor settings.search store 2 [including [97], including [98]] [inlineG, constantK, inlineG] ∧
    (∀ x ∈ [inlineG, constantK, inlineG], IsWellFormed x) ∧
    ∃ e s', [including [97], including [98]].foldlM (declare (runner settings 12) 3) .empty (.start store) = .error e s' := by
  have honce := standFor_a (.nil 2)
  have htwice := standFor_a (standFor_b (.nil 2))
  have hwf : ∀ x ∈ [inlineG, constantK, inlineG], IsWellFormed x := by
    simp [isWellFormed_inlineG, isWellFormed_constantK]
  have hfirst : [including [97]].foldlM (declare (runner settings 12) 3) .empty (.start store) =
      Action.ofExcept ([inlineG, constantK].foldlM Declarations.addItem .empty) (.start store) :=
    foldlM_declare_eq (Nat.le_refl 12) honce (Nat.lt_succ_self 2) .empty
  obtain ⟨hseparates, -⟩ := declared_names_disjoint settings 12 3 [including [97]] (.start store)
  obtain ⟨-, hexact⟩ := declared_names_disjoint settings 12 3 [including [97], including [98]] (.start store)
  obtain ⟨hfails, -⟩ := hexact 2 _ htwice hwf (Nat.lt_succ_self 2) (Nat.le_refl 12)
  have hname : List.Duplicate (some [103]) ([inlineG, constantK, inlineG].map nameOf) := by decide
  exact ⟨honce, ⟨_, _, hfirst, (hseparates _ _ hfirst).2 2 _ honce⟩, htwice, hwf, hfails.mpr ⟨_, hname⟩⟩

end Nested

end Clvm.Compiler
