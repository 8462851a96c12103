import Clvm.Build.File
import Clvm.Proofs.Compiler.Pruning
import Mathlib.Data.List.Perm.Basic

/-!
# Walking through directories

A walk finds every source below a directory once. The sources in a directory are those in it and those below one of the
directories in it, and each of these is listed once. That no source is found whose directory has too long a name is the one
exception.
-/

namespace Clvm.Build

/-! ### Lists by keys -/

/-- A list falls into the part without keys and the parts of the keys. -/
theorem perm_append_flatMap_filter {α κ : Type} [DecidableEq κ] {key : α → Option κ} {ks : List κ} (hks : ks.Nodup)
    {xs : List α} (h : ∀ x ∈ xs, ∀ k, key x = some k → k ∈ ks) :
    xs.Perm (xs.filter (key · = none) ++ ks.flatMap fun k => xs.filter (key · = some k)) := by
  induction xs with
  | nil => simp
  | cons x xs ih =>
    have hxs := ih fun y hy => h y (List.mem_cons_of_mem x hy)
    cases hkey : key x with
    | none =>
      simp only [List.filter_cons, hkey, decide_true, if_true, reduceCtorEq, decide_false, Bool.false_eq_true, if_false,
        List.cons_append]
      exact hxs.cons x
    | some k =>
      obtain ⟨before, after, rfl⟩ := List.append_of_mem (h x List.mem_cons_self k hkey)
      obtain ⟨-, hafter, hdisjoint⟩ := List.nodup_append.mp hks
      have hother : ∀ ks : List κ, k ∉ ks → (ks.flatMap fun k' => (x :: xs).filter (key · = some k')) =
          ks.flatMap fun k' => xs.filter (key · = some k') := by
        intro ks hk
        refine List.flatMap_congr fun k' hk' => ?_
        have hne : k ≠ k' := fun heq => hk (heq ▸ hk')
        simp [hkey, hne]
      have hbefore : k ∉ before := fun hk => hdisjoint k hk k List.mem_cons_self rfl
      rw [List.flatMap_append, List.flatMap_cons, hother _ hbefore, hother _ (List.nodup_cons.mp hafter).1]
      rw [List.flatMap_append, List.flatMap_cons] at hxs
      simp only [List.filter_cons, hkey, reduceCtorEq, decide_false, Bool.false_eq_true, if_false, decide_true, if_true,
        List.cons_append]
      rw [← List.append_assoc] at hxs ⊢
      exact (hxs.cons x).trans List.perm_middle.symm

/-! ### The sources below a place -/

/-- The directories on the way from a place to a source, and the name of the source. -/
def wayTo? (here p : Place) : Option (List String × String) :=
  (here.isPrefixOf? p).bind fun rest =>
    rest.getLast?.bind fun file => if isSource file then some (rest.dropLast, file) else none

/-- The sources below a place. -/
def sourcesUnder (store : Store) (here : Place) : List (List String × String) :=
  store.files.filterMap fun (p, _) => wayTo? here p

theorem wayTo?_eq_some {here p : Place} {source : List String × String} :
    wayTo? here p = some source ↔ p = here ++ source.1 ++ [source.2] ∧ isSource source.2 = true := by
  obtain ⟨way, file⟩ := source
  simp only [wayTo?, Option.bind_eq_some_iff, List.isPrefixOf?_eq_some_iff_append_eq, List.getLast?_eq_some_iff,
    Option.ite_none_right_eq_some, Option.some.injEq, Prod.mk.injEq]
  constructor
  · rintro ⟨rest, rfl, _, ⟨way', rfl⟩, hsource, hway, rfl⟩
    rw [List.dropLast_concat] at hway
    exact ⟨by rw [hway, List.append_assoc], hsource⟩
  · rintro ⟨rfl, hsource⟩
    exact ⟨way ++ [file], (List.append_assoc ..).symm, file, ⟨way, rfl⟩, hsource, List.dropLast_concat, rfl⟩

theorem sourcesUnder_in (store : Store) (here : Place) :
    (sourcesUnder store here).filter (·.1.head? = none) = ((store.filesIn here).filter isSource).map ([], ·) := by
  rw [sourcesUnder, Store.filesIn, List.filter_filterMap, List.filter_filterMap, List.map_filterMap]
  refine List.filterMap_congr fun e _ => Option.ext fun source => ?_
  obtain ⟨p, f⟩ := e
  obtain ⟨way, file⟩ := source
  simp only [Option.filter_eq_some_iff, wayTo?_eq_some, Option.map_eq_some_iff, Option.ite_none_right_eq_some,
    List.getLast?_eq_some_iff, List.head?_eq_none_iff, decide_eq_true_eq, Prod.mk.injEq]
  constructor
  · rintro ⟨⟨rfl, hsource⟩, rfl⟩
    rw [List.append_nil]
    exact ⟨file, ⟨⟨List.dropLast_concat, here, rfl⟩, hsource⟩, rfl, rfl⟩
  · rintro ⟨_, ⟨⟨hhere, directory, rfl⟩, hsource⟩, rfl, rfl⟩
    rw [List.dropLast_concat] at hhere
    exact ⟨⟨by rw [hhere, List.append_nil], hsource⟩, rfl⟩

theorem sourcesUnder_below (store : Store) (here : Place) (d : String) :
    (sourcesUnder store here).filter (·.1.head? = some d) =
      (sourcesUnder store (here ++ [d])).map fun source => (d :: source.1, source.2) := by
  rw [sourcesUnder, sourcesUnder, List.filter_filterMap, List.map_filterMap]
  refine List.filterMap_congr fun e _ => Option.ext fun source => ?_
  obtain ⟨p, f⟩ := e
  obtain ⟨way, file⟩ := source
  simp only [Option.filter_eq_some_iff, wayTo?_eq_some, Option.map_eq_some_iff, List.head?_eq_some_iff,
    decide_eq_true_eq, Prod.mk.injEq]
  constructor
  · rintro ⟨⟨rfl, hsource⟩, below, rfl⟩
    exact ⟨(below, file), ⟨by simp, hsource⟩, rfl, rfl⟩
  · rintro ⟨⟨below, _⟩, ⟨rfl, hsource⟩, rfl, rfl⟩
    exact ⟨⟨by simp, hsource⟩, below, rfl⟩

theorem mem_directoriesIn_of_source {store : Store} {here : Place} {source : List String × String} {d : String}
    (h : source ∈ sourcesUnder store here) (hd : source.1.head? = some d) : d ∈ store.directoriesIn here := by
  obtain ⟨⟨p, f⟩, hfile, hway⟩ := List.mem_filterMap.mp h
  obtain ⟨rfl, -⟩ := wayTo?_eq_some.mp hway
  obtain ⟨below, hbelow⟩ := List.head?_eq_some_iff.mp hd
  rw [Store.directoriesIn, List.mem_eraseDups, List.mem_filterMap]
  refine ⟨here ++ source.1, List.mem_append_left _ (List.mem_map.mpr ⟨_, hfile, List.dropLast_concat⟩), ?_⟩
  rw [if_pos (by simp), hbelow]
  simp

/-- A directory has the sources in it and those below the directories in it, each of which is listed once. -/
theorem sourcesUnder_perm (store : Store) (here : Place) :
    (sourcesUnder store here).Perm (((store.filesIn here).filter isSource).map ([], ·) ++
      (store.directoriesIn here).flatMap fun d =>
        (sourcesUnder store (here ++ [d])).map fun source => (d :: source.1, source.2)) := by
  have hsplit := perm_append_flatMap_filter (nodup_eraseDups _)
    fun source (h : source ∈ sourcesUnder store here) d hd => mem_directoriesIn_of_source h hd
  simp only [sourcesUnder_in, sourcesUnder_below] at hsplit
  exact hsplit

/-! ### The sources that a walk finds -/

/-- The name that a walk has for a directory that it comes to. -/
def nameAlong (name : String) (way : List String) : String := way.foldl FileName.join name

/-- The directory of a source can be listed. -/
def isInReach (name : String) (source : List String × String) : Bool :=
  (nameAlong name source.1).utf8ByteSize ≤ Store.maxName

/-- The name under which a walk finds a source. -/
def foundAs (name : String) (source : List String × String) : String :=
  FileName.inside (nameAlong name source.1) source.2

/-- The names of the sources that a walk can find, if it comes to a place with a name. -/
def namesUnder (store : Store) (name : String) (here : Place) : List String :=
  ((sourcesUnder store here).filter (isInReach name)).map (foundAs name)

theorem utf8ByteSize_le_nameAlong (name : String) (way : List String) :
    name.utf8ByteSize ≤ (nameAlong name way).utf8ByteSize := by
  induction way generalizing name with
  | nil => exact Nat.le_refl _
  | cons d way ih =>
    refine Nat.le_trans ?_ (ih (FileName.join name d))
    rw [FileName.join]
    split
    · rw [String.utf8ByteSize_append]
      omega
    · rw [String.utf8ByteSize_append, String.utf8ByteSize_append]
      omega

theorem walk_eq {store : Store} {name : String} {here : Place} (h : ¬name.utf8ByteSize > Store.maxName) :
    walk store name here = ((store.filesIn here).filter isSource).map (FileName.inside name) ++
      (store.directoriesIn here).flatMap fun d => walk store (FileName.join name d) (here ++ [d]) := by
  rw [walk, if_neg h]
  congr 1
  rw [List.flatMap_subtype (g := fun d => walk store (FileName.join name d) (here ++ [d])) fun _ _ => rfl,
    List.unattach_attach]

/-- Each source in reach is found, and found once. -/
theorem walk_perm (store : Store) (name : String) (here : Place) :
    (walk store name here).Perm (namesUnder store name here) := by
  induction name, here using walk.induct store with
  | case1 name here hlong =>
    have hnone : namesUnder store name here = [] := by
      rw [namesUnder, List.map_eq_nil_iff, List.filter_eq_nil_iff]
      intro source _ hreach
      have hle := utf8ByteSize_le_nameAlong name source.1
      have hfits := of_decide_eq_true hreach
      omega
    rw [walk, if_pos hlong, hnone]
  | case2 name here hshort ih =>
    have hin : (((store.filesIn here).filter isSource).map ([], ·)).filter (isInReach name) =
        ((store.filesIn here).filter isSource).map ([], ·) := by
      refine List.filter_eq_self.mpr fun source hsource => ?_
      obtain ⟨file, -, rfl⟩ := List.mem_map.mp hsource
      exact decide_eq_true (Nat.le_of_not_lt hshort)
    have hsplit := ((sourcesUnder_perm store here).filter (isInReach name)).map (foundAs name)
    rw [List.filter_append, hin, List.map_append, List.map_map, List.filter_flatMap, List.map_flatMap] at hsplit
    simp only [List.filter_map, List.map_map] at hsplit
    rw [walk_eq hshort]
    exact (List.Perm.append_left _ (List.Perm.flatMap_left _ fun d hd => ih ⟨d, hd⟩)).trans hsplit.symm

end Clvm.Build
