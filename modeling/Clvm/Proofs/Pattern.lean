import Clvm.Pattern
import Clvm.Proofs.Form

/-!
# Matching is solving for the names

In a plain pattern every mark stands in front of a name. Such a pattern matches a tree just when some assignment to its
names, which keeps to the names that are known, makes the tree out of the pattern. The known bindings are threaded from left
to right, so the assignment is the same for all occurrences of a name, and what comes out is what was known with the
assignment added.
-/

namespace Clvm.Pattern
open Machine

/-! ### Patterns and their names -/

def subtrees : SExp → List SExp
  | .atom b => [.atom b]
  | .pair x y => .pair x y :: (subtrees x ++ subtrees y)

/-- The atoms that stand in front of names. -/
abbrev IsMark (b : Bytes) : Prop := b = atomMark ∨ b = treeMark

/-- Every pair that starts with a mark goes on with a name, which is a text and not the mark itself. -/
def Plain (p : SExp) : Prop :=
  ∀ mark tail, IsMark mark → .pair (.atom mark) tail ∈ subtrees p →
    ∃ name text, tail = .atom name ∧ name ≠ mark ∧ Text.Utf8.decode? name = some text

/-- The mark and the name of a pattern that binds a name. -/
def nameAt? : SExp → SExp → Option (Bytes × String)
  | .atom mark, .atom name =>
    if IsMark mark then (Text.Utf8.decode? name).map fun text => (mark, String.ofList text) else none
  | _, _ => none

/-- The names of a pattern from left to right, each with the mark in front of it. -/
def occurrences : SExp → List (Bytes × String)
  | .atom _ => []
  | .pair left right =>
    match nameAt? left right with
    | some occurrence => [occurrence]
    | none => occurrences left ++ occurrences right

def names (p : SExp) : List String := (occurrences p).map (·.2)

/-- What a pattern becomes when its names are replaced. -/
def instantiate (assign : String → SExp) : SExp → SExp
  | .atom b => .atom b
  | .pair left right =>
    match nameAt? left right with
    | some (_, name) => assign name
    | none => .pair (instantiate assign left) (instantiate assign right)

/-- An assignment that agrees with what is known, gives atoms where only atoms match, and makes the tree of the pattern. -/
structure Solves (assign : String → SExp) (known : Bindings) (p t : SExp) : Prop where
  agrees : ∀ name ∈ names p, ∀ v, known.lookup name = some v → assign name = v
  atoms : ∀ name, (atomMark, name) ∈ occurrences p → ∃ b, assign name = .atom b
  makes : instantiate assign p = t

/-- Bindings that are the known ones with the values of some names added. -/
def Extends (assign : String → SExp) (known : Bindings) (names : List String) (found : Bindings) : Prop :=
  ∀ name, found.lookup name = if name ∈ names then some (assign name) else known.lookup name

section Plain
variable {left right p : SExp}

theorem nameAt?_of_mark {mark name : Bytes} {text : List Char} (hmark : IsMark mark)
    (htext : Text.Utf8.decode? name = some text) :
    nameAt? (.atom mark) (.atom name) = some (mark, String.ofList text) := by
  simp only [nameAt?, if_pos hmark, htext, Option.map_some]

theorem nameAt?_eq_none (hatom : left ≠ .atom atomMark) (htree : left ≠ .atom treeMark) : nameAt? left right = none := by
  cases left with
  | pair x y => rfl
  | atom mark =>
    cases right with
    | pair x y => rfl
    | atom name =>
      have hmark : ¬IsMark mark := by
        rintro (rfl | rfl)
        · exact hatom rfl
        · exact htree rfl
      simp only [nameAt?, if_neg hmark]

theorem occurrences_name {mark name : Bytes} {text : List Char} (hmark : IsMark mark)
    (htext : Text.Utf8.decode? name = some text) :
    occurrences (.pair (.atom mark) (.atom name)) = [(mark, String.ofList text)] := by
  simp only [occurrences, nameAt?_of_mark hmark htext]

theorem occurrences_pair (hatom : left ≠ .atom atomMark) (htree : left ≠ .atom treeMark) :
    occurrences (.pair left right) = occurrences left ++ occurrences right := by
  simp only [occurrences, nameAt?_eq_none hatom htree]

/-- A plain pair is a mark with a name, or two plain patterns. -/
theorem Plain.cases (h : Plain (.pair left right)) :
    (∃ mark name text, IsMark mark ∧ name ≠ mark ∧ Text.Utf8.decode? name = some text ∧
      left = .atom mark ∧ right = .atom name) ∨
    (left ≠ .atom atomMark ∧ left ≠ .atom treeMark ∧ Plain left ∧ Plain right) := by
  by_cases hleft : ∃ mark, IsMark mark ∧ left = .atom mark
  · obtain ⟨mark, hmark, rfl⟩ := hleft
    obtain ⟨name, text, rfl, hne, htext⟩ := h mark right hmark List.mem_cons_self
    exact .inl ⟨mark, name, text, hmark, hne, htext, rfl, rfl⟩
  · refine .inr ⟨fun heq => hleft ⟨_, .inl rfl, heq⟩, fun heq => hleft ⟨_, .inr rfl, heq⟩, ?_, ?_⟩
    · intro mark tail hmark htail
      exact h mark tail hmark (List.mem_cons_of_mem _ (List.mem_append_left _ htail))
    · intro mark tail hmark htail
      exact h mark tail hmark (List.mem_cons_of_mem _ (List.mem_append_right _ htail))

end Plain

/-! ### Binding one name -/

section Binding
variable {known : Bindings} {key : String} {t : SExp}

/-- Binds a name that is a text. -/
def bindKey (known : Bindings) (key : String) (t : SExp) : Option Bindings :=
  match known.lookup key with
  | some old => if old = t then some known else none
  | none => some (known ++ [(key, t)])

theorem bindName_of_text {name : Bytes} {text : List Char} (htext : Text.Utf8.decode? name = some text) :
    bindName known (.atom name) t = .ok (bindKey known (String.ofList text) t) := by
  simp only [bindName, htext, bindKey]
  cases known.lookup (String.ofList text) <;> rfl

theorem lookup_snoc (hkey : known.lookup key = none) (name : String) :
    (known ++ [(key, t)]).lookup name = if name = key then some t else known.lookup name := by
  rw [List.lookup_append]
  by_cases hname : name = key
  · subst hname
    simp [hkey]
  · have hbeq : (name == key) = false := by simpa using hname
    simp [hname, List.lookup_cons, hbeq]

theorem lookup_of_bindKey {found : Bindings} (h : bindKey known key t = some found) :
    ∀ name, found.lookup name = if name = key then some t else known.lookup name := by
  rw [bindKey] at h
  intro name
  split at h
  · rename_i old hold
    split at h
    · rename_i heq
      cases h
      subst heq
      split
      · rename_i hname
        rw [hname, hold]
      · rfl
    · cases h
  · rename_i hnone
    cases h
    exact lookup_snoc hnone name

theorem bindKey_agrees {found : Bindings} (h : bindKey known key t = some found) {v : SExp}
    (hv : known.lookup key = some v) : v = t := by
  simp only [bindKey, hv] at h
  split at h
  · assumption
  · cases h

theorem exists_bindKey (h : ∀ v, known.lookup key = some v → t = v) : ∃ found, bindKey known key t = some found := by
  rw [bindKey]
  cases hkey : known.lookup key with
  | none => exact ⟨_, rfl⟩
  | some old => exact ⟨known, if_pos (h old hkey).symm⟩

theorem nodup_bindKey {found : Bindings} (hknown : (known.map (·.1)).Nodup) (h : bindKey known key t = some found) :
    (found.map (·.1)).Nodup := by
  rw [bindKey] at h
  split at h
  · split at h
    · cases h
      exact hknown
    · cases h
  · rename_i hnone
    cases h
    rw [List.map_append, List.nodup_append]
    refine ⟨hknown, List.nodup_cons.mpr ⟨List.not_mem_nil, List.nodup_nil⟩, ?_⟩
    rintro _ hmem _ hkey rfl
    obtain ⟨⟨name, v⟩, hentry, rfl⟩ := List.mem_map.mp hmem
    have hkey' : name = key := List.mem_singleton.mp hkey
    have := List.lookup_eq_none_iff.mp hnone _ hentry
    simp [hkey'] at this

end Binding

/-! ### Matching a plain pattern -/

section Matching
variable {known found : Bindings} {left right p t : SExp}

/-- What matching a mark with a name comes to. -/
theorem matchTree_name {mark name : Bytes} {text : List Char} (hmark : IsMark mark) (hne : name ≠ mark)
    (htext : Text.Utf8.decode? name = some text) :
    matchTree known (.pair (.atom mark) (.atom name)) t =
      .ok (if mark = atomMark ∧ t.isPair = true then none else bindKey known (String.ofList text) t) := by
  have hname : SExp.atom name ≠ .atom mark := fun heq => hne (SExp.atom.inj heq)
  rcases hmark with rfl | rfl
  · cases t with
    | pair x y => simp [matchTree, SExp.isPair]
    | atom b => simp only [matchTree, if_neg hname, bindName_of_text htext, SExp.isPair]; rfl
  · have hdiff : treeMark ≠ atomMark := by decide
    have hleft : SExp.atom treeMark ≠ .atom atomMark := fun heq => hdiff (SExp.atom.inj heq)
    simp only [matchTree, if_neg hleft, if_neg hname, bindName_of_text htext, hdiff, false_and, ↓reduceIte]

theorem matchTree_pair (hatom : left ≠ .atom atomMark) (htree : left ≠ .atom treeMark) (x y : SExp) :
    matchTree known (.pair left right) (.pair x y) =
      matchTree known left x >>= fun found? => found?.elim (.ok none) fun found => matchTree found right y := by
  simp only [matchTree, if_neg hatom, if_neg htree]
  cases matchTree known left x with
  | error e => rfl
  | ok found? => cases found? <;> rfl

theorem matchTree_pair_atom (hatom : left ≠ .atom atomMark) (htree : left ≠ .atom treeMark) (b : Bytes) :
    matchTree known (.pair left right) (.atom b) = .ok none := by
  simp only [matchTree, if_neg hatom, if_neg htree]

/-- A plain pattern is never at fault. -/
theorem Plain.exists_matchTree (hp : Plain p) (known : Bindings) (t : SExp) :
    ∃ answer, matchTree known p t = .ok answer := by
  induction p generalizing known t with
  | atom b => cases t <;> exact ⟨_, rfl⟩
  | pair left right ihl ihr =>
    rcases hp.cases with ⟨mark, name, text, hmark, hne, htext, rfl, rfl⟩ | ⟨hatom, htree, hl, hr⟩
    · exact ⟨_, matchTree_name hmark hne htext⟩
    · cases t with
      | atom b => exact ⟨none, matchTree_pair_atom hatom htree b⟩
      | pair x y =>
        obtain ⟨found?, hfound⟩ := ihl hl known x
        rw [matchTree_pair hatom htree, hfound, ok_bind]
        cases found? with
        | none => exact ⟨none, rfl⟩
        | some found => exact ihr hr found y

/-- The ways in which a tree matches a plain pattern. -/
inductive Matches : Bindings → SExp → SExp → Bindings → Prop where
  | atom (known : Bindings) (b : Bytes) : Matches known (.atom b) (.atom b) known
  | name {known found : Bindings} {mark name : Bytes} {text : List Char} {t : SExp} (hmark : IsMark mark)
      (hne : name ≠ mark) (htext : Text.Utf8.decode? name = some text) (hatom : mark = atomMark → t.isPair = false)
      (hbind : bindKey known (String.ofList text) t = some found) :
      Matches known (.pair (.atom mark) (.atom name)) t found
  | pair {known middle found : Bindings} {left right x y : SExp} (hatom : left ≠ .atom atomMark)
      (htree : left ≠ .atom treeMark) (hleft : Matches known left x middle) (hright : Matches middle right y found) :
      Matches known (.pair left right) (.pair x y) found

theorem matchTree_of_matches (h : Matches known p t found) : matchTree known p t = .ok (some found) := by
  induction h with
  | atom known b => simp [matchTree]
  | name hmark hne htext hatom hbind =>
    rw [matchTree_name hmark hne htext, if_neg, hbind]
    rintro ⟨hmark', hpair⟩
    rw [hatom hmark'] at hpair
    cases hpair
  | pair hatom htree _ _ ihl ihr =>
    rw [matchTree_pair hatom htree, ihl, ok_bind]
    exact ihr

theorem matches_of_matchTree (hp : Plain p) (h : matchTree known p t = .ok (some found)) : Matches known p t found := by
  induction p generalizing known t found with
  | atom b =>
    cases t with
    | pair x y => cases h
    | atom b' =>
      rw [matchTree] at h
      split at h
      · rename_i heq
        cases h
        rw [heq]
        exact .atom _ b'
      · cases h
  | pair left right ihl ihr =>
    rcases hp.cases with ⟨mark, name, text, hmark, hne, htext, rfl, rfl⟩ | ⟨hatom, htree, hl, hr⟩
    · rw [matchTree_name hmark hne htext] at h
      split at h
      · cases h
      · rename_i hpair
        refine .name hmark hne htext (fun hmark' => ?_) (Except.ok.inj h)
        simpa [hmark'] using hpair
    · obtain ⟨x, y, middle, rfl, hleft, hright⟩ := (matchTree_pair_eq_some hatom htree).mp h
      exact .pair hatom htree (ihl hl hleft) (ihr hr hright)

theorem Matches.nodup (h : Matches known p t found) (hknown : (known.map (·.1)).Nodup) : (found.map (·.1)).Nodup := by
  induction h with
  | atom => exact hknown
  | name _ _ _ _ hbind => exact nodup_bindKey hknown hbind
  | pair _ _ _ _ ihl ihr => exact ihr (ihl hknown)

/-- What is known stays known. -/
theorem Matches.lookup (h : Matches known p t found) {name : String} {v : SExp} (hv : known.lookup name = some v) :
    found.lookup name = some v := by
  induction h with
  | atom => exact hv
  | @name known found mark _ text t hmark hne htext hatom hbind =>
    rw [lookup_of_bindKey hbind]
    split
    · rename_i heq
      rw [heq] at hv
      rw [← bindKey_agrees hbind hv]
    · exact hv
  | pair _ _ _ _ ihl ihr => exact ihr (ihl hv)

end Matching

/-! ### Solutions -/

section Solutions
variable {assign : String → SExp} {known found : Bindings} {left right p t : SExp}

theorem solves_name_iff {mark name : Bytes} {text : List Char} (hmark : IsMark mark)
    (htext : Text.Utf8.decode? name = some text) :
    Solves assign known (.pair (.atom mark) (.atom name)) t ↔
      assign (String.ofList text) = t ∧ (∀ v, known.lookup (String.ofList text) = some v → t = v) ∧
        (mark = atomMark → t.isPair = false) := by
  have hname := nameAt?_of_mark hmark htext
  have hoccurs := occurrences_name hmark htext
  constructor
  · rintro ⟨hagrees, hatoms, hmakes⟩
    simp only [instantiate, hname] at hmakes
    simp only [names, hoccurs, List.map_cons, List.map_nil, List.mem_singleton, forall_eq] at hagrees
    subst hmakes
    refine ⟨rfl, hagrees, ?_⟩
    rintro rfl
    obtain ⟨b, hb⟩ := hatoms (String.ofList text) (by rw [hoccurs]; exact List.mem_singleton.mpr rfl)
    rw [hb]
    rfl
  · rintro ⟨rfl, hagrees, hatoms⟩
    refine ⟨?_, ?_, by simp only [instantiate, hname]⟩
    · simpa only [names, hoccurs, List.map_cons, List.map_nil, List.mem_singleton, forall_eq] using hagrees
    · intro name' hmem
      rw [hoccurs, List.mem_singleton] at hmem
      obtain ⟨hmark', rfl⟩ := Prod.mk.inj hmem
      have hpair := hatoms hmark'.symm
      cases hvalue : assign (String.ofList text) with
      | atom b => exact ⟨b, rfl⟩
      | pair x y =>
        rw [hvalue] at hpair
        cases hpair

theorem solves_pair_iff (hatom : left ≠ .atom atomMark) (htree : left ≠ .atom treeMark) :
    Solves assign known (.pair left right) t ↔
      ∃ x y, t = .pair x y ∧ Solves assign known left x ∧ Solves assign known right y := by
  have hname : nameAt? left right = none := nameAt?_eq_none hatom htree
  have hoccurs : occurrences (.pair left right) = _ := occurrences_pair hatom htree
  constructor
  · rintro ⟨hagrees, hatoms, rfl⟩
    simp only [names, hoccurs, List.map_append, List.mem_append] at hagrees hatoms
    refine ⟨instantiate assign left, instantiate assign right, by simp only [instantiate, hname], ?_, ?_⟩
    · exact ⟨fun name hmem => hagrees name (.inl hmem), fun name hmem => hatoms name (.inl hmem), rfl⟩
    · exact ⟨fun name hmem => hagrees name (.inr hmem), fun name hmem => hatoms name (.inr hmem), rfl⟩
  · rintro ⟨x, y, rfl, ⟨hagrees, hatoms, rfl⟩, hagrees', hatoms', rfl⟩
    refine ⟨?_, ?_, by simp only [instantiate, hname]⟩
    · simp only [names, hoccurs, List.map_append, List.mem_append]
      rintro name (hmem | hmem)
      · exact hagrees name hmem
      · exact hagrees' name hmem
    · simp only [hoccurs, List.mem_append]
      rintro name (hmem | hmem)
      · exact hatoms name hmem
      · exact hatoms' name hmem

theorem Extends.append {xs ys : List String} {middle : Bindings} (h : Extends assign known xs middle)
    (h' : Extends assign middle ys found) : Extends assign known (xs ++ ys) found := by
  intro name
  rw [h' name, h name]
  by_cases hx : name ∈ xs
  · by_cases hy : name ∈ ys <;> simp [hx, hy]
  · simp [hx]

/-- Every solution is found, and nothing else is added to what is known. -/
theorem Solves.matches (hp : Plain p) (h : Solves assign known p t) :
    ∃ found, Matches known p t found ∧ Extends assign known (names p) found := by
  induction p generalizing known t with
  | atom b =>
    obtain ⟨-, -, rfl⟩ := h
    exact ⟨known, .atom known b, fun name => rfl⟩
  | pair left right ihl ihr =>
    rcases hp.cases with ⟨mark, name, text, hmark, hne, htext, rfl, rfl⟩ | ⟨hatom, htree, hl, hr⟩
    · obtain ⟨rfl, hagrees, hatoms⟩ := (solves_name_iff hmark htext).mp h
      obtain ⟨found, hfound⟩ := exists_bindKey hagrees
      refine ⟨found, .name hmark hne htext hatoms hfound, fun name' => ?_⟩
      simp only [lookup_of_bindKey hfound, names, occurrences_name hmark htext, List.map_cons, List.map_nil,
        List.mem_singleton]
      split
      · rename_i heq
        rw [heq]
      · rfl
    · obtain ⟨x, y, rfl, hsl, hsr⟩ := (solves_pair_iff hatom htree).mp h
      obtain ⟨middle, hmiddle, hextends⟩ := ihl hl hsl
      -- The names on the right may be known from the left, where the assignment gave them.
      have hsr' : Solves assign middle right y := by
        refine ⟨fun name hmem v hv => ?_, hsr.atoms, hsr.makes⟩
        rw [hextends name] at hv
        split at hv
        · exact Option.some.inj hv
        · exact hsr.agrees name hmem v hv
      obtain ⟨found, hfound, hextends'⟩ := ihr hr hsr'
      refine ⟨found, .pair hatom htree hmiddle hfound, ?_⟩
      rw [names, occurrences_pair hatom htree, List.map_append]
      exact hextends.append hextends'

/-- Whatever assignment the bindings found are part of is a solution. -/
theorem Matches.solves (h : Matches known p t found) (hassign : ∀ name v, found.lookup name = some v → assign name = v) :
    Solves assign known p t := by
  induction h with
  | atom known b => exact ⟨nofun, nofun, rfl⟩
  | @name known found mark _ text t hmark hne htext hatom hbind =>
    refine (solves_name_iff hmark htext).mpr ⟨?_, fun v hv => (bindKey_agrees hbind hv).symm, hatom⟩
    refine hassign _ _ ?_
    rw [lookup_of_bindKey hbind, if_pos rfl]
  | @pair known middle found left right x y hatom htree hleft hright ihl ihr =>
    have hsl := ihl fun name v hv => hassign name v (hright.lookup hv)
    have hsr := ihr hassign
    refine (solves_pair_iff hatom htree).mpr ⟨x, y, rfl, hsl, ?_, hsr.atoms, hsr.makes⟩
    intro name hmem v hv
    exact hsr.agrees name hmem v (hleft.lookup hv)

/-- A plain pattern matches a tree just when an assignment to its names solves it, and then the bindings are the known ones
with the assignment added. Matching a plain pattern never fails, and binds no name twice. -/
theorem matchTree_is_solving (hp : Plain p) (t : SExp) (known : Bindings) :
    (∃ answer, matchTree known p t = .ok answer) ∧
    ((∃ found, matchTree known p t = .ok (some found)) ↔ ∃ assign, Solves assign known p t) ∧
    (∀ found, matchTree known p t = .ok (some found) →
      (∀ assign, Solves assign known p t →
        ∀ name, found.lookup name = if name ∈ names p then some (assign name) else known.lookup name) ∧
      ((known.map (·.1)).Nodup → (found.map (·.1)).Nodup)) := by
  refine ⟨hp.exists_matchTree known t, ⟨?_, ?_⟩, fun found h => ⟨fun assign hsolves => ?_, ?_⟩⟩
  · rintro ⟨found, h⟩
    refine ⟨fun name => (found.lookup name).getD .nil, (matches_of_matchTree hp h).solves fun name v hv => ?_⟩
    rw [hv, Option.getD_some]
  · rintro ⟨assign, hsolves⟩
    obtain ⟨found, hfound, -⟩ := hsolves.matches hp
    exact ⟨found, matchTree_of_matches hfound⟩
  · obtain ⟨found', hfound', hextends⟩ := hsolves.matches hp
    cases (matchTree_of_matches hfound').symm.trans h
    exact hextends
  · exact (matches_of_matchTree hp h).nodup

/-- With `b` known, `((: . a) ($ . a) : . b)` matches `(7 7 1 . 2)` and binds `a`. -/
theorem matchTree_is_solving_repeated :
    let p : SExp := .pair (.pair (.atom treeMark) (.atom [0x61]))
      (.pair (.pair (.atom atomMark) (.atom [0x61])) (.pair (.atom treeMark) (.atom [0x62])))
    let both : SExp := .pair (.atom [1]) (.atom [2])
    let t : SExp := .pair (.atom [7]) (.pair (.atom [7]) both)
    let known : Bindings := [("b", both), ("c", .nil)]
    Plain p ∧ ∃ found, matchTree known p t = .ok (some found) ∧ found.lookup "a" = some (.atom [7]) ∧
      found.lookup "b" = some both ∧ found.lookup "c" = some .nil := by
  intro p both t known
  have hp : Plain p := by
    intro mark tail hmark hmem
    simp only [p, subtrees, List.cons_append, List.nil_append, List.mem_cons, SExp.pair.injEq, SExp.atom.injEq, reduceCtorEq,
      false_and, List.not_mem_nil, or_false, false_or] at hmem
    rcases hmem with ⟨rfl, rfl⟩ | ⟨rfl, rfl⟩ | ⟨rfl, rfl⟩
    · exact ⟨[0x61], ['a'], rfl, by decide, rfl⟩
    · exact ⟨[0x61], ['a'], rfl, by decide, rfl⟩
    · exact ⟨[0x62], ['b'], rfl, by decide, rfl⟩
  have hoccurs : occurrences p = [(treeMark, "a"), (atomMark, "a"), (treeMark, "b")] := rfl
  let assign : String → SExp := fun name => if name = "a" then .atom [7] else both
  have hsolves : Solves assign known p t := by
    refine ⟨?_, ?_, rfl⟩
    · simp [names, hoccurs, assign, known, List.lookup_cons]
    · intro name hmem
      have hdiff : atomMark ≠ treeMark := by decide
      simp only [hoccurs, List.mem_cons, Prod.mk.injEq, hdiff, false_and, true_and, List.not_mem_nil, or_false,
        false_or] at hmem
      exact ⟨[7], if_pos hmem⟩
  obtain ⟨-, hiff, hfound⟩ := matchTree_is_solving hp t known
  obtain ⟨found, h⟩ := hiff.mpr ⟨assign, hsolves⟩
  obtain ⟨hlookup, -⟩ := hfound found h
  refine ⟨hp, found, h, ?_, ?_, ?_⟩
  · rw [hlookup assign hsolves]
    rfl
  · rw [hlookup assign hsolves]
    rfl
  · rw [hlookup assign hsolves]
    rfl

end Solutions

end Clvm.Pattern
