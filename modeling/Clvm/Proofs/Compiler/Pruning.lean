import Clvm.Compiler.Pruning
import Clvm.Proofs.Compiler.Declarations
import Mathlib.Order.Defs.LinearOrder

/-!
# Names that a module uses

A name is used if it is declared and the main expression reaches it (`Reached`). The rounds of `reach` find all that is
reached, and the names that are used come in the order of their bytes. So they depend on no order of declarations, and on no
declaration that is not reached (`usedNames_rearranged`).
-/

namespace Clvm

/-! ### The order of names -/

namespace Bytes

theorem lt_iff (x y : Bytes) : lt x y = true ↔ x < y := by
  fun_induction lt x y with
  | case1 => simp
  | case2 => simp
  | case3 => simp
  | case4 x xs y ys ih => simp [List.cons_lt_cons_iff, ih]

theorem not_lt_iff (x y : Bytes) : (!lt y x) = true ↔ x ≤ y := by
  rw [Bool.not_eq_true', ← Bool.not_eq_true, lt_iff, List.not_lt]

theorem pairwise_mergeSort (xs : List Bytes) : (xs.mergeSort fun x y => !lt y x).Pairwise (· ≤ ·) := by
  have htrans : ∀ x y z : Bytes, (!lt y x) = true → (!lt z y) = true → (!lt z x) = true := by
    intro x y z hxy hyz
    rw [not_lt_iff] at hxy hyz ⊢
    exact List.le_trans hxy hyz
  have htotal : ∀ x y : Bytes, (!lt y x || !lt x y) = true := by
    intro x y
    rw [Bool.or_eq_true, not_lt_iff, not_lt_iff]
    exact List.le_total x y
  exact (List.pairwise_mergeSort htrans htotal xs).imp fun hxy => (not_lt_iff _ _).mp hxy

theorem eq_of_sorted {xs ys : List Bytes} (hperm : xs.Perm ys) (hxs : xs.Pairwise (· ≤ ·)) (hys : ys.Pairwise (· ≤ ·)) :
    xs = ys :=
  hperm.eq_of_pairwise (fun _ _ _ _ hxy hyx => List.le_antisymm hxy hyx) hxs hys

theorem mergeSort_eq {xs ys : List Bytes} (hperm : xs.Perm ys) (hys : ys.Pairwise (· ≤ ·)) :
    (xs.mergeSort fun x y => !lt y x) = ys :=
  eq_of_sorted ((List.mergeSort_perm xs _).trans hperm) (pairwise_mergeSort xs) hys

end Bytes

theorem nodup_eraseDups {α : Type} [BEq α] [LawfulBEq α] (xs : List α) : xs.eraseDups.Nodup := by
  cases xs with
  | nil => exact List.nodup_nil
  | cons x xs =>
    rw [List.eraseDups_cons, List.nodup_cons]
    refine ⟨fun hx => ?_, nodup_eraseDups _⟩
    simp [List.mem_eraseDups] at hx
termination_by xs.length
decreasing_by exact Nat.lt_succ_of_le (List.length_filter_le _ _)

namespace Compiler

/-! ### What is reached -/

/-- What the main expression reaches: a candidate that something mentions which it reaches. -/
inductive Reached (candidates : List Bytes) (mentioned : Bytes → List Bytes) : Bytes → Prop where
  | main : Reached candidates mentioned mainName
  | mention {m n : Bytes} (hm : Reached candidates mentioned m) (hn : n ∈ mentioned m) (hcandidate : n ∈ candidates) :
      Reached candidates mentioned n

section Rounds
variable {candidates : List Bytes} {mentioned : Bytes → List Bytes} {recent seen : List Bytes}

/-- Between rounds, only what was added last may mention a name that has not been seen. -/
structure Frontier (candidates : List Bytes) (mentioned : Bytes → List Bytes) (recent seen : List Bytes) : Prop where
  main : mainName ∈ seen
  nodup : seen.Nodup
  sound : ∀ n ∈ seen, Reached candidates mentioned n
  subset : ∀ n ∈ recent, n ∈ seen
  closed : ∀ m ∈ seen, m ∉ recent → ∀ n ∈ mentioned m, n ∈ candidates → n ∈ seen

/-- The names that a round adds. -/
def newNames (candidates : List Bytes) (mentioned : Bytes → List Bytes) (recent seen : List Bytes) : List Bytes :=
  candidates.filter fun n => !seen.contains n && (recent.flatMap mentioned).contains n

theorem reach_succ (rounds : Nat) :
    reach candidates mentioned (rounds + 1) recent seen =
      if (newNames candidates mentioned recent seen).isEmpty then seen
      else reach candidates mentioned rounds (newNames candidates mentioned recent seen)
        (seen ++ newNames candidates mentioned recent seen) := rfl

theorem mem_newNames {n : Bytes} :
    n ∈ newNames candidates mentioned recent seen ↔ n ∈ candidates ∧ n ∉ seen ∧ ∃ m ∈ recent, n ∈ mentioned m := by
  simp [newNames]

theorem Frontier.round (h : Frontier candidates mentioned recent seen) (hcandidates : candidates.Nodup) :
    Frontier candidates mentioned (newNames candidates mentioned recent seen)
      (seen ++ newNames candidates mentioned recent seen) := by
  refine ⟨List.mem_append_left _ h.main, ?_, fun n hn => ?_, fun n hn => List.mem_append_right _ hn, ?_⟩
  · refine List.nodup_append.mpr ⟨h.nodup, hcandidates.filter _, ?_⟩
    rintro a ha b hb rfl
    exact (mem_newNames.mp hb).2.1 ha
  · rcases List.mem_append.mp hn with hn | hn
    · exact h.sound n hn
    · obtain ⟨hcandidate, -, m, hm, hmention⟩ := mem_newNames.mp hn
      exact .mention (h.sound m (h.subset m hm)) hmention hcandidate
  · intro m hm hnew n hn hcandidate
    have hm := (List.mem_append.mp hm).resolve_right hnew
    by_cases hseen : n ∈ seen
    · exact List.mem_append_left _ hseen
    · by_cases hrecent : m ∈ recent
      · exact List.mem_append_right _ (mem_newNames.mpr ⟨hcandidate, hseen, m, hrecent, hn⟩)
      · exact absurd (h.closed m hm hrecent n hn hcandidate) hseen

/-- When a round adds nothing, all that is reached has been seen. -/
theorem Frontier.mem_iff (h : Frontier candidates mentioned recent seen)
    (hnew : newNames candidates mentioned recent seen = []) (n : Bytes) : n ∈ seen ↔ Reached candidates mentioned n := by
  refine ⟨h.sound n, fun hn => ?_⟩
  induction hn with
  | main => exact h.main
  | @mention m n hm hmention hcandidate ih =>
    by_cases hrecent : m ∈ recent
    · by_contra hseen
      have : n ∈ newNames candidates mentioned recent seen := mem_newNames.mpr ⟨hcandidate, hseen, m, hrecent, hmention⟩
      rw [hnew] at this
      cases this
    · exact h.closed m ih hrecent n hmention hcandidate

/-- A round that adds a name leaves fewer candidates. -/
theorem unseen_lt (hnew : newNames candidates mentioned recent seen ≠ []) :
    (candidates.filter fun n => !(seen ++ newNames candidates mentioned recent seen).contains n).length <
      (candidates.filter fun n => !seen.contains n).length := by
  obtain ⟨n, hn⟩ := List.exists_mem_of_ne_nil _ hnew
  obtain ⟨hcandidate, hseen, -⟩ := mem_newNames.mp hn
  have hsplit : (candidates.filter fun n => !(seen ++ newNames candidates mentioned recent seen).contains n) =
      (candidates.filter fun n => !seen.contains n).filter
        fun n => !(newNames candidates mentioned recent seen).contains n := by
    rw [List.filter_filter]
    refine List.filter_congr fun m _ => ?_
    simp [Bool.and_comm]
  rw [hsplit]
  refine List.length_filter_lt_length_iff_exists.mpr ⟨n, ?_, by simpa using hn⟩
  simp [hcandidate, hseen]

theorem reach_spec (hcandidates : candidates.Nodup) {rounds : Nat}
    (hrounds : (candidates.filter fun n => !seen.contains n).length < rounds)
    (h : Frontier candidates mentioned recent seen) :
    (reach candidates mentioned rounds recent seen).Nodup ∧
      ∀ n, n ∈ reach candidates mentioned rounds recent seen ↔ Reached candidates mentioned n := by
  induction rounds generalizing recent seen with
  | zero => exact absurd hrounds (Nat.not_lt_zero _)
  | succ rounds ih =>
    rw [reach_succ]
    by_cases hnew : newNames candidates mentioned recent seen = []
    · rw [if_pos (List.isEmpty_iff.mpr hnew)]
      exact ⟨h.nodup, h.mem_iff hnew⟩
    · rw [if_neg (mt List.isEmpty_iff.mp hnew)]
      exact ih (by have := unseen_lt hnew; omega) (h.round hcandidates)

theorem frontier_main (candidates : List Bytes) (mentioned : Bytes → List Bytes) :
    Frontier candidates mentioned [mainName] [mainName] where
  main := List.mem_singleton_self _
  nodup := List.nodup_singleton _
  sound n hn := by
    rw [List.mem_singleton.mp hn]
    exact .main
  subset n hn := hn
  closed m hm hrecent := absurd hm hrecent

end Rounds

/-! ### Used names -/

/-- A name that functions or constants declare. -/
def IsDeclared (functions constants : Named) (n : Bytes) : Prop :=
  some n ∈ functions.map (·.1) ∨ some n ∈ constants.map (·.1)

/-- The names that may be reached. -/
def candidatesOf (functions constants macros : Named) : List Bytes :=
  ((functions.filterMap (·.1) ++ constants.filterMap (·.1)) ++ macros.filterMap (·.1)).eraseDups

/-- A name that the main expression of a module reaches. -/
def IsReached (functions constants macros : Named) : Bytes → Prop :=
  Reached (candidatesOf functions constants macros) (mentions functions macros)

theorem mem_candidatesOf {functions constants macros : Named} {n : Bytes} :
    n ∈ candidatesOf functions constants macros ↔ IsDeclared functions constants n ∨ some n ∈ macros.map (·.1) := by
  simp [candidatesOf, IsDeclared, List.mem_eraseDups, or_assoc]

/-- The names of a module's functions and constants that its main expression reaches, in order. -/
structure IsUsed (functions constants macros : Named) (names : List Bytes) : Prop where
  sorted : names.Pairwise (· ≤ ·)
  nodup : names.Nodup
  mem_iff : ∀ n, n ∈ names ↔ IsDeclared functions constants n ∧ n ≠ mainName ∧ IsReached functions constants macros n

theorem exists_usedNames {macros : List SExp} {table : Named} (h : macrosByName macros = .ok table)
    (functions constants : Named) :
    ∃ names, usedNames functions constants macros = .ok names ∧ IsUsed functions constants table names := by
  have hcandidates : (candidatesOf functions constants table).Nodup := nodup_eraseDups _
  have hrounds := Nat.lt_succ_of_le
    (List.length_filter_le (fun n => !List.contains [mainName] n) (candidatesOf functions constants table))
  obtain ⟨hnodup, hmem⟩ := reach_spec hcandidates hrounds (frontier_main _ (mentions functions table))
  rw [usedNames, h]
  refine ⟨_, rfl, ?_, ?_, ?_⟩
  · exact Bytes.pairwise_mergeSort _
  · exact (List.mergeSort_perm _ _).nodup_iff.mpr (hnodup.filter _)
  · intro n
    have hdeclared : ((functions.filterMap (·.1) ++ constants.filterMap (·.1)).contains n && decide (n ≠ mainName)) = true ↔
        IsDeclared functions constants n ∧ n ≠ mainName := by
      simp [IsDeclared]
    rw [(List.mergeSort_perm _ _).mem_iff, List.mem_filter, hdeclared]
    constructor
    · rintro ⟨hreach, hn, hmain⟩
      exact ⟨hn, hmain, (hmem n).mp hreach⟩
    · rintro ⟨hn, hmain, hreached⟩
      exact ⟨(hmem n).mpr hreached, hn, hmain⟩

theorem exists_macrosByName {functions constants : Named} {macros : List SExp} {names : List Bytes}
    (h : usedNames functions constants macros = .ok names) :
    ∃ table, macrosByName macros = .ok table ∧ IsUsed functions constants table names := by
  cases htable : macrosByName macros with
  | error e =>
    rw [usedNames, htable] at h
    cases h
  | ok table =>
    obtain ⟨names', hnames', hused⟩ := exists_usedNames htable functions constants
    rw [h] at hnames'
    cases hnames'
    exact ⟨table, rfl, hused⟩

/-- The names that are used are told by which they are. -/
theorem IsUsed.eq {functions₁ constants₁ macros₁ functions₂ constants₂ macros₂ : Named} {names₁ names₂ : List Bytes}
    (h₁ : IsUsed functions₁ constants₁ macros₁ names₁) (h₂ : IsUsed functions₂ constants₂ macros₂ names₂)
    (h : ∀ n, n ∈ names₁ ↔ n ∈ names₂) : names₁ = names₂ := by
  have hperm := (List.perm_ext_iff_of_nodup h₁.nodup h₂.nodup).mpr h
  exact Bytes.eq_of_sorted hperm h₁.sorted h₂.sorted

/-! ### Macros by name -/

theorem mem_keys_put {table : Named} {name k : Option Bytes} {t : SExp} (h : k ∈ (table.put name t).map (·.1)) :
    k = name ∨ k ∈ table.map (·.1) := by
  rw [Named.put] at h
  split at h
  · right
    have hkeys : (table.map fun e => if e.1 = name then (name, t) else e).map (·.1) = table.map (·.1) := by
      rw [List.map_map]
      refine List.map_congr_left fun e _ => ?_
      by_cases he : e.1 = name <;> simp [he]
    rwa [hkeys] at h
  · rw [List.map_append, List.mem_append] at h
    exact h.elim .inr fun h => .inl (List.mem_singleton.mp h)

theorem mem_keys_foldl_put {entries table : Named} {k : Option Bytes}
    (h : k ∈ (entries.foldl (fun table e => table.put e.1 e.2) table).map (·.1)) :
    k ∈ table.map (·.1) ∨ k ∈ entries.map (·.1) := by
  induction entries generalizing table with
  | nil => exact .inl h
  | cons e entries ih =>
    obtain ⟨n, t⟩ := e
    rcases ih h with hk | hk
    · rcases mem_keys_put hk with rfl | hk
      · exact .inr List.mem_cons_self
      · exact .inl hk
    · exact .inr (List.mem_cons_of_mem _ hk)

theorem foldl_put_of_nodup {entries table : Named} (h : ((table ++ entries).map (·.1)).Nodup) :
    entries.foldl (fun table e => table.put e.1 e.2) table = table ++ entries := by
  induction entries generalizing table with
  | nil => exact (List.append_nil _).symm
  | cons e entries ih =>
    have hfresh : e.1 ∉ table.map (·.1) := by
      rw [List.map_append, List.nodup_append] at h
      exact fun hmem => h.2.2 _ hmem e.1 List.mem_cons_self rfl
    rw [List.append_cons] at h ⊢
    rw [List.foldl_cons, put_of_not_mem hfresh]
    exact ih h

theorem mem_keys_macrosByName {macros : List SExp} {table : Named} (h : macrosByName macros = .ok table) {k : Option Bytes}
    (hk : k ∈ table.map (·.1)) : k ∈ macros.map nameOf := by
  induction macros generalizing table with
  | nil =>
    cases h
    cases hk
  | cons m macros ih =>
    cases m with
    | atom b => cases h
    | pair keyword declaration =>
      cases declaration with
      | atom b => cases h
      | pair name declaration =>
        cases hmore : macrosByName macros with
        | error e =>
          rw [macrosByName, hmore] at h
          cases h
        | ok more =>
          rw [macrosByName, hmore] at h
          cases h
          rcases mem_keys_foldl_put hk with hk | hk
          · rw [List.mem_singleton.mp hk]
            exact List.mem_cons_self
          · exact List.mem_cons_of_mem _ (ih hmore hk)

/-! ### Rearranged modules -/

theorem lookup_eq_some_iff_mem {table : Named} (h : (table.map (·.1)).Nodup) {name : Option Bytes} {t : SExp} :
    table.lookup name = some t ↔ (name, t) ∈ table := by
  induction table with
  | nil => simp
  | cons e table ih =>
    obtain ⟨n, u⟩ := e
    rw [List.map_cons, List.nodup_cons] at h
    rw [List.lookup_cons, List.mem_cons, Prod.mk.injEq]
    by_cases hn : name = n
    · subst hn
      have hne : (name, t) ∉ table := fun hmem => h.1 (List.mem_map.mpr ⟨_, hmem, rfl⟩)
      simp [hne, eq_comm]
    · have hbeq : (name == n) = false := by simpa using hn
      simp [hbeq, hn, ih h.2]

/-- Declarations that list some items which are kept, and others that the main expression does not reach. -/
structure Splits (d : Declarations) (main : SExp) (table : Named) (kept dead : List SExp) : Prop where
  names : ∀ name, name ∈ d.names ↔ name ∈ (kept ++ dead).map nameOf
  nodup : ((kept ++ dead).map nameOf).Nodup
  nonempty : some mainName ∉ (kept ++ dead).map nameOf
  keys : ((d.functions ++ d.constants).map (·.1)).Nodup
  functions : ∀ e, e ∈ d.functions ↔ e = (some mainName, main) ∨ ∃ x ∈ kept ++ dead, functionOf? x = some e
  constants : ∀ e, e ∈ d.constants ↔ ∃ x ∈ kept ++ dead, constantOf? x = some e
  macros : ∀ k ∈ table.map (·.1), k ∈ kept.map nameOf
  dead : ∀ x ∈ dead, ∀ n, nameOf x = some n → ¬ IsReached d.functions d.constants table n

theorem nodup_keys_of_declares {d : Declarations} {main : SExp} {xs : List SExp} (hd : Declares d main xs)
    (hmain : some mainName ∉ xs.map nameOf) : ((d.functions ++ d.constants).map (·.1)).Nodup := by
  have hfunctions := functionNames_sublist xs
  have hconstants := constantNames_sublist xs
  have hdisjoint : ∀ k ∈ (xs.filterMap functionOf?).map (·.1), k ∉ (xs.filterMap constantOf?).map (·.1) := by
    intro k hf hc
    obtain ⟨e, he, rfl⟩ := List.mem_map.mp hf
    obtain ⟨e', he', hkey⟩ := List.mem_map.mp hc
    obtain ⟨x, hx, hxe⟩ := List.mem_filterMap.mp he
    obtain ⟨y, hy, hye⟩ := List.mem_filterMap.mp he'
    have hname : nameOf x = nameOf y := by
      rw [← nameOf_of_entryOf? hxe, ← nameOf_of_entryOf? hye, hkey]
    cases List.inj_on_of_nodup_map hd.nodup hx hy hname
    rw [constantOf?_of_functionOf? hxe] at hye
    cases hye
  rw [hd.functions, hd.constants, List.map_append, List.map_append, List.append_assoc, List.nodup_append]
  refine ⟨hd.nodup.sublist hfunctions, ?_, ?_⟩
  · refine List.nodup_cons.mpr ⟨fun hmem => hmain (hconstants.subset hmem), hd.nodup.sublist hconstants⟩
  · rintro k hk l hl rfl
    rcases List.mem_cons.mp hl with rfl | hl
    · exact hmain (hfunctions.subset hk)
    · exact hdisjoint k hk hl

/-- The items of a module, when those apart that it does not use. -/
theorem splits_of_declares {d : Declarations} {main : SExp} {xs kept dead : List SExp} {table : Named} {names : List Bytes}
    (hd : Declares d main xs) (hxs : xs.Perm (kept ++ dead)) (hmain : some mainName ∉ d.names)
    (htable : macrosByName d.macros = .ok table) (hmacros : ∀ m ∈ d.macros, nameOf m ∈ kept.map nameOf)
    (hnames : IsUsed d.functions d.constants table names) (hunused : ∀ x ∈ dead, ∀ n ∈ names, nameOf x ≠ some n) :
    Splits d main table kept dead := by
  have hnodup := (hxs.map nameOf).nodup_iff.mp hd.nodup
  have hnames' : ∀ name, name ∈ d.names ↔ name ∈ (kept ++ dead).map nameOf := by
    intro name
    rw [hd.names, List.mem_reverse, (hxs.map nameOf).mem_iff]
  have hnonempty : some mainName ∉ (kept ++ dead).map nameOf := mt (hnames' _).mpr hmain
  have hkeys : ∀ k ∈ table.map (·.1), k ∈ kept.map nameOf := by
    intro k hk
    obtain ⟨m, hm, rfl⟩ := List.mem_map.mp (mem_keys_macrosByName htable hk)
    exact hmacros m hm
  refine ⟨hnames', hnodup, hnonempty, nodup_keys_of_declares hd ?_, fun e => ?_, fun e => ?_, hkeys, ?_⟩
  · rwa [← List.mem_reverse, ← hd.names]
  · rw [hd.functions, List.mem_append, List.mem_filterMap, List.mem_singleton, or_comm]
    simp only [hxs.mem_iff]
  · rw [hd.constants, List.mem_filterMap]
    simp only [hxs.mem_iff]
  · intro x hx n hname hreached
    have hmem : some n ∈ dead.map nameOf := List.mem_map.mpr ⟨x, hx, hname⟩
    have hn : n ≠ mainName := by
      rintro rfl
      exact hnonempty (by rw [List.map_append]; exact List.mem_append_right _ hmem)
    cases hreached with
    | main => exact hn rfl
    | mention hm hmention hcandidate =>
      rcases mem_candidatesOf.mp hcandidate with hdeclared | hmacro
      · exact hunused x hx n ((hnames.mem_iff n).mpr ⟨hdeclared, hn, .mention hm hmention hcandidate⟩) hname
      · rw [List.map_append, List.nodup_append] at hnodup
        exact hnodup.2.2 _ (hkeys _ hmacro) _ hmem rfl

/-- A name that stays when the items that are not reached are left out. -/
def Stays (kept : List SExp) (n : Bytes) : Prop := n = mainName ∨ some n ∈ kept.map nameOf

section Splitting
variable {d : Declarations} {main : SExp} {table : Named} {kept dead : List SExp} {n : Bytes}

theorem Splits.nodup_functions (h : Splits d main table kept dead) : (d.functions.map (·.1)).Nodup := by
  have hkeys := h.keys
  rw [List.map_append] at hkeys
  exact hkeys.of_append_left

theorem Splits.not_mem_dead (h : Splits d main table kept dead) (hn : Stays kept n) {x : SExp} (hx : x ∈ dead) :
    nameOf x ≠ some n := by
  intro hname
  have hmem : some n ∈ dead.map nameOf := List.mem_map.mpr ⟨x, hx, hname⟩
  rcases hn with rfl | hn
  · exact h.nonempty (by rw [List.map_append]; exact List.mem_append_right _ hmem)
  · have hnodup := h.nodup
    rw [List.map_append] at hnodup
    exact (List.nodup_append.mp hnodup).2.2 _ hn _ hmem rfl

theorem Splits.mem_entries (h : Splits d main table kept dead) (hn : Stays kept n) (keyword : Bytes)
    (read : SExp → Option SExp) (t : SExp) :
    (∃ x ∈ kept ++ dead, entryOf? keyword read x = some (some n, t)) ↔
      ∃ x ∈ kept, entryOf? keyword read x = some (some n, t) := by
  refine ⟨?_, fun ⟨x, hx, hxe⟩ => ⟨x, List.mem_append_left _ hx, hxe⟩⟩
  rintro ⟨x, hx, hxe⟩
  rcases List.mem_append.mp hx with hx | hx
  · exact ⟨x, hx, hxe⟩
  · exact absurd (nameOf_of_entryOf? hxe).symm (h.not_mem_dead hn hx)

theorem Splits.mem_functions (h : Splits d main table kept dead) (hn : Stays kept n) (t : SExp) :
    (some n, t) ∈ d.functions ↔ (some n, t) = (some mainName, main) ∨ ∃ x ∈ kept, functionOf? x = some (some n, t) :=
  (h.functions _).trans (or_congr_right (h.mem_entries hn _ _ t))

theorem Splits.mem_constants (h : Splits d main table kept dead) (hn : Stays kept n) (t : SExp) :
    (some n, t) ∈ d.constants ↔ ∃ x ∈ kept, constantOf? x = some (some n, t) :=
  (h.constants _).trans (h.mem_entries hn _ _ t)

theorem Splits.stays (h : Splits d main table kept dead) (hn : IsReached d.functions d.constants table n) :
    Stays kept n := by
  have hitem : ∀ x ∈ kept ++ dead, nameOf x = some n → Stays kept n := by
    intro x hx hname
    rcases List.mem_append.mp hx with hx | hx
    · exact .inr (List.mem_map.mpr ⟨x, hx, hname⟩)
    · exact absurd hn (h.dead x hx n hname)
  cases hn with
  | main => exact .inl rfl
  | mention _ _ hcandidate =>
    rcases mem_candidatesOf.mp hcandidate with (hdeclared | hdeclared) | hmacro
    · obtain ⟨e, he, hename⟩ := List.mem_map.mp hdeclared
      rcases (h.functions e).mp he with rfl | ⟨x, hx, hxe⟩
      · cases hename
        exact .inl rfl
      · exact hitem x hx ((nameOf_of_entryOf? hxe).symm.trans hename)
    · obtain ⟨e, he, hename⟩ := List.mem_map.mp hdeclared
      obtain ⟨x, hx, hxe⟩ := (h.constants e).mp he
      exact hitem x hx ((nameOf_of_entryOf? hxe).symm.trans hename)
    · exact .inr (h.macros _ hmacro)

end Splitting

section Rearranging
variable {d₁ d₂ : Declarations} {main : SExp} {table : Named} {kept dead₁ dead₂ : List SExp} {n : Bytes}

theorem Splits.functions_iff (h₁ : Splits d₁ main table kept dead₁) (h₂ : Splits d₂ main table kept dead₂)
    (hn : Stays kept n) (t : SExp) : (some n, t) ∈ d₁.functions ↔ (some n, t) ∈ d₂.functions :=
  (h₁.mem_functions hn t).trans (h₂.mem_functions hn t).symm

theorem Splits.constants_iff (h₁ : Splits d₁ main table kept dead₁) (h₂ : Splits d₂ main table kept dead₂)
    (hn : Stays kept n) (t : SExp) : (some n, t) ∈ d₁.constants ↔ (some n, t) ∈ d₂.constants :=
  (h₁.mem_constants hn t).trans (h₂.mem_constants hn t).symm

theorem Splits.isDeclared_iff (h₁ : Splits d₁ main table kept dead₁) (h₂ : Splits d₂ main table kept dead₂)
    (hn : Stays kept n) : IsDeclared d₁.functions d₁.constants n ↔ IsDeclared d₂.functions d₂.constants n := by
  simp [IsDeclared, h₁.functions_iff h₂ hn, h₁.constants_iff h₂ hn]

theorem Splits.mentions_eq (h₁ : Splits d₁ main table kept dead₁) (h₂ : Splits d₂ main table kept dead₂)
    (hn : Stays kept n) : mentions d₁.functions table n = mentions d₂.functions table n := by
  have hlookup : d₁.functions.lookup (some n) = d₂.functions.lookup (some n) := by
    refine Option.ext fun t => ?_
    rw [lookup_eq_some_iff_mem h₁.nodup_functions, lookup_eq_some_iff_mem h₂.nodup_functions, h₁.functions_iff h₂ hn]
  simp only [mentions, hlookup]

theorem Splits.isReached (h₁ : Splits d₁ main table kept dead₁) (h₂ : Splits d₂ main table kept dead₂)
    (hn : IsReached d₁.functions d₁.constants table n) : IsReached d₂.functions d₂.constants table n := by
  induction hn with
  | main => exact .main
  | @mention m n hm hmention hcandidate ih =>
    have hstays := h₁.stays (.mention hm hmention hcandidate)
    refine .mention ih ?_ (mem_candidatesOf.mpr ?_)
    · rwa [← h₁.mentions_eq h₂ (h₁.stays hm)]
    · exact (mem_candidatesOf.mp hcandidate).imp_left (h₁.isDeclared_iff h₂ hstays).mp

/-- Modules that declare the same items but for some that they do not reach use the same names. -/
theorem Splits.names_eq (h₁ : Splits d₁ main table kept dead₁) (h₂ : Splits d₂ main table kept dead₂)
    {names₁ names₂ : List Bytes} (hnames₁ : IsUsed d₁.functions d₁.constants table names₁)
    (hnames₂ : IsUsed d₂.functions d₂.constants table names₂) : names₁ = names₂ := by
  refine hnames₁.eq hnames₂ fun n => ?_
  rw [hnames₁.mem_iff, hnames₂.mem_iff]
  constructor
  · rintro ⟨hdeclared, hmain, hreached⟩
    exact ⟨(h₁.isDeclared_iff h₂ (h₁.stays hreached)).mp hdeclared, hmain, h₁.isReached h₂ hreached⟩
  · rintro ⟨hdeclared, hmain, hreached⟩
    exact ⟨(h₂.isDeclared_iff h₁ (h₂.stays hreached)).mp hdeclared, hmain, h₂.isReached h₁ hreached⟩

end Rearranging

end Compiler
end Clvm
