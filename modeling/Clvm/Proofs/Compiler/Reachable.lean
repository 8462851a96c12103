import Clvm.Proofs.Compiler.Pruning
import Mathlib.Logic.Relation

/-!
# What pruning keeps

A name mentions every atom of its function and of its macro. The names that a module uses are the functions and constants to
which mentions lead from the main expression, in any number of steps and also through names that are macros only. The rounds
that find them come to an end by themselves: any bound above the number of names gives the same.
-/

namespace Clvm.Compiler

/-- A name mentions the atoms of the function of this name, and those of the declaration of the macro of this name. -/
def Mentions (functions : Named) (macros : List SExp) (m n : Bytes) : Prop :=
  (∃ function, (some m, function) ∈ functions ∧ n ∈ function.leaves) ∨
    ∃ declaration ∈ macros, nameOf declaration = some m ∧ n ∈ declaration.leaves

/-! ### Macros of distinct names -/

theorem macrosByName_cons {m : SExp} {name : Bytes} (hname : nameOf m = some name) (macros : List SExp) :
    macrosByName (m :: macros) =
      (macrosByName macros).map fun more => more.foldl (fun table e => Named.put table e.1 e.2) [(some name, m)] := by
  match m, hname with
  | .pair keyword (.pair (.atom b) more), hname =>
    cases hname
    rw [macrosByName]
    cases macrosByName macros <;> rfl

theorem macrosByName_of_nodup {macros : List SExp} (hnodup : (macros.map nameOf).Nodup)
    (hnames : ∀ m ∈ macros, (nameOf m).isSome = true) :
    macrosByName macros = .ok (macros.map fun m => (nameOf m, m)) := by
  induction macros with
  | nil => rfl
  | cons m macros ih =>
    obtain ⟨hm, hnames⟩ := List.forall_mem_cons.mp hnames
    obtain ⟨name, hname⟩ := Option.isSome_iff_exists.mp hm
    have hkeys : (([(nameOf m, m)] ++ macros.map fun m => (nameOf m, m)).map (·.1)).Nodup := by
      simpa [Function.comp_def] using hnodup
    rw [macrosByName_cons hname, ih (List.nodup_cons.mp hnodup).2 hnames, ← hname]
    exact congrArg _ (foldl_put_of_nodup hkeys)

section Chains
variable {functions constants : Named} {macros : List SExp}

theorem mem_mentions (hfunctions : (functions.map (·.1)).Nodup) (hmacros : (macros.map nameOf).Nodup) {m n : Bytes} :
    n ∈ mentions functions (macros.map fun d => (nameOf d, d)) m ↔ Mentions functions macros m n := by
  have hkeys : ((macros.map fun d => (nameOf d, d)).map (·.1)).Nodup := by simpa [Function.comp_def] using hmacros
  have htable : ∀ t, (some m, t) ∈ (macros.map fun d => (nameOf d, d)) ↔ t ∈ macros ∧ nameOf t = some m := by simp
  simp only [mentions, List.mem_append, Mentions]
  refine or_congr ?_ ?_
  · simp only [← lookup_eq_some_iff_mem hfunctions]
    cases functions.lookup (some m) <;> simp
  · simp only [← and_assoc, ← htable, ← lookup_eq_some_iff_mem hkeys]
    cases (macros.map fun d => (nameOf d, d)).lookup (some m) <;> simp

/-- What mentions something is a candidate itself. -/
theorem mem_candidatesOf_of_mentions {m n : Bytes} (h : Mentions functions macros m n) :
    m ∈ candidatesOf functions constants (macros.map fun d => (nameOf d, d)) := by
  rw [mem_candidatesOf]
  rcases h with ⟨function, hmem, -⟩ | ⟨declaration, hmem, hname, -⟩
  · exact .inl (.inl (List.mem_map.mpr ⟨_, hmem, rfl⟩))
  · exact .inr (List.mem_map.mpr ⟨_, List.mem_map.mpr ⟨declaration, hmem, rfl⟩, hname⟩)

theorem reached_iff_chain (hfunctions : (functions.map (·.1)).Nodup) (hmacros : (macros.map nameOf).Nodup) {n : Bytes}
    (hn : n ∈ candidatesOf functions constants (macros.map fun d => (nameOf d, d))) :
    IsReached functions constants (macros.map fun d => (nameOf d, d)) n ↔
      Relation.ReflTransGen (Mentions functions macros) mainName n := by
  constructor
  · intro h
    induction h with
    | main => exact .refl
    | mention hm hmention hcandidate ih =>
      rw [mem_mentions hfunctions hmacros] at hmention
      exact .tail (ih (mem_candidatesOf_of_mentions hmention)) hmention
  · intro h
    induction h with
    | refl => exact .main
    | tail _ hmention ih =>
      exact .mention (ih (mem_candidatesOf_of_mentions hmention)) ((mem_mentions hfunctions hmacros).mpr hmention) hn

end Chains

/-! ### Rounds -/

/-- Rounds that are more than the candidates not yet seen are never used up. -/
theorem reach_of_lt {candidates : List Bytes} {mentioned : Bytes → List Bytes} {recent seen : List Bytes} {k rounds : Nat}
    (hk : (candidates.filter fun n => !seen.contains n).length < k) (hrounds : k ≤ rounds) :
    reach candidates mentioned rounds recent seen = reach candidates mentioned k recent seen := by
  induction k generalizing rounds recent seen with
  | zero => exact absurd hk (Nat.not_lt_zero _)
  | succ k ih =>
    obtain ⟨rounds, rfl⟩ := Nat.exists_eq_add_of_le' (Nat.le_of_add_left_le hrounds)
    rw [reach_succ, reach_succ]
    by_cases hnew : newNames candidates mentioned recent seen = []
    · rw [if_pos (List.isEmpty_iff.mpr hnew), if_pos (List.isEmpty_iff.mpr hnew)]
    · rw [if_neg (mt List.isEmpty_iff.mp hnew), if_neg (mt List.isEmpty_iff.mp hnew)]
      have := unseen_lt hnew
      exact ih (by omega) (by omega)

theorem IsUsed.pairwise_lt {functions constants macros : Named} {names : List Bytes}
    (h : IsUsed functions constants macros names) : names.Pairwise (· < ·) :=
  (h.sorted.and h.nodup).imp fun hxy => (List.le_iff_lt_or_eq.mp hxy.1).resolve_right hxy.2

/-- With functions and macros of distinct names, the rounds end by themselves, and the names that are used come out in
strictly increasing order: the functions and constants, other than the main expression, to which mentions lead from it. -/
theorem usedNames_iff_chain {functions constants : Named} {macros : List SExp} (hfunctions : (functions.map (·.1)).Nodup)
    (hmacros : (macros.map nameOf).Nodup) (hnames : ∀ m ∈ macros, (nameOf m).isSome = true) :
    let table := macros.map fun m => (nameOf m, m)
    let candidates := candidatesOf functions constants table
    let reached := fun rounds => reach candidates (mentions functions table) rounds [mainName] [mainName]
    (∀ rounds, candidates.length < rounds → reached rounds = reached (candidates.length + 1)) ∧
    ∃ names, usedNames functions constants macros = .ok names ∧ names.Pairwise (· < ·) ∧
      ∀ n, n ∈ names ↔ n ≠ mainName ∧ (some n ∈ functions.map (·.1) ∨ some n ∈ constants.map (·.1)) ∧
        Relation.ReflTransGen (Mentions functions macros) mainName n := by
  intro table candidates reached
  have htable : macrosByName macros = .ok table := macrosByName_of_nodup hmacros hnames
  obtain ⟨names, hused, hspec⟩ := exists_usedNames htable functions constants
  refine ⟨fun rounds hrounds => ?_, names, hused, hspec.pairwise_lt, fun n => ?_⟩
  · exact reach_of_lt (Nat.lt_succ_of_le (List.length_filter_le _ _)) hrounds
  · have hchain : IsDeclared functions constants n →
        (IsReached functions constants table n ↔ Relation.ReflTransGen (Mentions functions macros) mainName n) := fun hn =>
      reached_iff_chain hfunctions hmacros (mem_candidatesOf.mpr (.inl hn))
    rw [hspec.mem_iff]
    constructor
    · rintro ⟨hdeclared, hmain, hreached⟩
      exact ⟨hmain, hdeclared, (hchain hdeclared).mp hreached⟩
    · rintro ⟨hmain, hdeclared, hreaches⟩
      exact ⟨hdeclared, hmain, (hchain hdeclared).mpr hreaches⟩

/-! ### A cycle through a macro -/

namespace Cycle

/-- A function without parameters whose body is a list of atoms. -/
def function (name : Bytes) (body : List Bytes) : Option Bytes × SExp :=
  (some name, .ofList [.nil, .ofList (body.map .atom)])

/-- The functions `h`, `g` and `f`, and the main expression `(m 1)`. -/
def functions : Named :=
  [function [104] [[117], [102]], function [103] [[107], [102]], function [102] [[103], [102]],
    function mainName [[109], [1]]]

/-- The constants `u` and `k`. -/
def constants : Named := [(some [117], Form.quote .one), (some [107], Form.quote .nil)]

/-- The declaration `(defmacro m x (qq f))`. -/
def expansion : SExp := .ofList [.atom Word.defineMacro, .atom [109], .atom [120], .ofList [.atom Word.quasi, .atom [102]]]

/-- The macro leads to `f`, which mentions itself and `g`, which mentions `f` and `k`. Nothing leads to `h` and `u`. -/
theorem usedNames_iff_chain_cycle :
    (functions.map (·.1)).Nodup ∧ ([expansion].map nameOf).Nodup ∧ (nameOf expansion).isSome = true ∧
    usedNames functions constants [expansion] = .ok [[102], [103], [107]] ∧
    ∃ names, usedNames functions constants [expansion] = .ok names ∧ names.Pairwise (· < ·) ∧
      ∀ n, n ∈ names ↔ n ≠ mainName ∧ (some n ∈ functions.map (·.1) ∨ some n ∈ constants.map (·.1)) ∧
        Relation.ReflTransGen (Mentions functions [expansion]) mainName n := by
  have hfunctions : (functions.map (·.1)).Nodup := by decide
  have hmacros : ([expansion].map nameOf).Nodup := List.nodup_singleton _
  have hname : (nameOf expansion).isSome = true := by decide
  have hsort : usedNames functions constants [expansion] =
      .ok ([[102], [103], [107]].mergeSort fun x y => !Bytes.lt y x) := rfl
  have hused : usedNames functions constants [expansion] = .ok [[102], [103], [107]] :=
    hsort.trans (congrArg _ (Bytes.mergeSort_eq (.refl _) (by decide)))
  exact ⟨hfunctions, hmacros, hname, hused,
    (usedNames_iff_chain hfunctions hmacros (List.forall_mem_singleton.mpr hname)).2⟩

end Cycle
end Clvm.Compiler
