import Clvm.Proofs.Compiler.Places
import Clvm.Proofs.Form

/-!
# Taking parameters apart

A tree of parameters has a name at every leaf that is not nil. Its symbols are these names, from left to right, and the
path of a symbol reads from an environment what the steps to the leaf read from what stands at the tree's place.
-/

namespace Clvm.Compiler
open Machine

/-- What steps to the first part, or to the rest, lead to. -/
def walk (turns : List Bool) (t : SExp) : Except Error SExp :=
  turns.foldlM (fun t right => if right then t.rest else t.first) t

/-- The machine goes where the steps go. -/
theorem toOption_descend (turns : List Bool) (t : SExp) : (descend turns t).toOption = (walk turns t).toOption := by
  induction turns generalizing t with
  | nil => rfl
  | cons right turns ih =>
    cases t with
    | atom b => cases right <;> rfl
    | pair x y =>
      cases right with
      | false => exact ih x
      | true => exact ih y

theorem walk_eq_ok_iff {turns : List Bool} {t v : SExp} : walk turns t = .ok v ↔ descend turns t = .ok v := by
  have h := toOption_descend turns t
  cases hw : walk turns t <;> cases hd : descend turns t <;> simp_all [Except.toOption]

/-! ### The leaves with a name -/

/-- The spots of a tree are its leaves that are not nil. -/
theorem mem_spots_iff {t : SExp} {b : Bytes} {turns : List Bool} :
    (b, turns) ∈ spots t ↔ b ≠ [] ∧ walk turns t = .ok (.atom b) := by
  rw [walk_eq_ok_iff]
  fun_induction spots t generalizing turns with
  | case1 => cases turns <;> simp [descend, eq_comm]
  | case2 c hc =>
    cases turns with
    | nil =>
      simp only [List.mem_singleton, Prod.mk.injEq, and_true, descend, Except.ok.injEq, SExp.atom.injEq]
      exact ⟨fun heq => ⟨heq ▸ hc, heq.symm⟩, fun h => h.2.symm⟩
    | cons right turns => simp [descend]
  | case3 x y ihx ihy =>
    simp only [List.mem_append, List.mem_map, Prod.mk.injEq, Prod.exists]
    constructor
    · rintro (⟨_, turns, hmem, rfl, rfl⟩ | ⟨_, turns, hmem, rfl, rfl⟩)
      · exact ihx.mp hmem
      · exact ihy.mp hmem
    · intro hleaf
      cases turns with
      | nil => cases hleaf.2
      | cons right turns =>
        cases right with
        | false => exact .inl ⟨b, turns, ihx.mpr hleaf, rfl, rfl⟩
        | true => exact .inr ⟨b, turns, ihy.mpr hleaf, rfl, rfl⟩

/-- Spots stand from left to right. -/
theorem pairwise_spots (t : SExp) : (spots t).Pairwise fun x y => x.2 < y.2 := by
  fun_induction spots t with
  | case1 => exact .nil
  | case2 b _ => exact List.pairwise_singleton _ _
  | case3 x y ihx ihy =>
    have hsame : ∀ side : Bool, ∀ ss : List (Bytes × List Bool), ss.Pairwise (fun x y => x.2 < y.2) →
        (ss.map fun s => (s.1, side :: s.2)).Pairwise fun x y => x.2 < y.2 := by
      intro side ss hss
      rw [List.pairwise_map]
      exact hss.imp fun hlt => by simpa using hlt
    refine List.pairwise_append.mpr ⟨hsame false _ ihx, hsame true _ ihy, fun s hs s' hs' => ?_⟩
    obtain ⟨r, -, rfl⟩ := List.mem_map.mp hs
    obtain ⟨r', -, rfl⟩ := List.mem_map.mp hs'
    exact List.Lex.rel (by decide)

theorem map_fst_spots (t : SExp) : (spots t).map (·.1) = t.leaves.filter (· ≠ []) := by
  fun_induction spots t with
  | case1 => rfl
  | case2 b hb =>
    have hb' : b ≠ [] := hb
    simp [SExp.leaves, hb']
  | case3 x y ihx ihy =>
    rw [SExp.leaves, List.filter_append, ← ihx, ← ihy]
    simp [Function.comp_def]

/-- Parameters are taken apart rightly. The symbols of a tree at the place of a number are the leaves with a name, each
once and from left to right, whatever names they have. The path of a symbol leads in every environment to what the steps
to its leaf lead to from what stands at that place, and nowhere if they do not lead there. -/
theorem placesOf_destructures [Curve] (t : SExp) {r : Int} (hr : 1 ≤ r) :
    ∃ root, Path.ofInt r = .ok root ∧ ∃ leaves : List (Bytes × List Bool),
      leaves.map (·.1) = t.leaves.filter (· ≠ []) ∧
      (∀ b turns, (b, turns) ∈ leaves ↔ b ≠ [] ∧ walk turns t = .ok (.atom b)) ∧
      leaves.Pairwise (fun x y => x.2 < y.2) ∧
      List.Forall₂ (fun entry leaf => ∃ path, entry = .ofList [.atom leaf.1, .atom path] ∧
          ∀ env, (valueOf (.atom path) env).toOption = (valueOf root.toSExp env >>= walk leaf.2).toOption)
        (placesOf root t) leaves := by
  obtain ⟨n, rfl⟩ := Int.eq_ofNat_of_zero_le (by omega : 0 ≤ r)
  have hn : n ≠ 0 := by omega
  refine ⟨⟨n⟩, rfl, spots t, map_fst_spots t, fun b turns => mem_spots_iff, pairwise_spots t, ?_⟩
  rw [placesOf_eq, List.forall₂_map_left_iff, List.forall₂_same]
  intro leaf _
  refine ⟨(Path.along ⟨n⟩ leaf.2).toBytes, rfl, fun env => ?_⟩
  have hpath : ∀ p : Path, valueOf p.toSExp env = placeAt p.index env := fun p => valueOf_formPath p.index env
  show (valueOf (Path.along ⟨n⟩ leaf.2).toSExp env).toOption = _
  rw [hpath, hpath, placeAt_along leaf.2 hn]
  cases placeAt n env with
  | error e => rfl
  | ok u => exact toOption_descend leaf.2 u

/-- The parameters `((a) b . a)` at place 200, where the paths take two bytes. -/
theorem placesOf_destructures_nested :
    let t : SExp := .pair (.pair (.atom [97]) .nil) (.pair (.atom [98]) (.atom [97]))
    (1 : Int) ≤ 200 ∧ ∃ leaves : List (Bytes × List Bool), leaves.map (·.1) = [[97], [98], [97]] ∧
      ([97], [true, true]) ∈ leaves ∧
      List.Forall₂ (fun entry leaf => ∃ path, entry = .ofList [.atom leaf.1, .atom path] ∧
          ∀ env, (valueOf (.atom path) env).toOption = (valueOf (.atom [200]) env >>= walk leaf.2).toOption)
        (placesOf ⟨200⟩ t) leaves := by
  intro t
  obtain ⟨root, hroot, leaves, hnames, hmem, -, hentries⟩ := placesOf_destructures t (r := 200) (by decide)
  cases hroot
  exact ⟨by decide, leaves, hnames, (hmem _ _).mpr ⟨by decide, rfl⟩, hentries⟩

end Clvm.Compiler
