import Clvm.Compiler.Operators
import Clvm.Proofs.Path
import Mathlib.Data.List.Forall2
import Mathlib.Data.List.Nodup

/-!
# Where constants and parameters stand

The names of a module's constants, the program that computes their tree and the paths under which they are found all
split a list in the middle. `slots` gives the turns that this leads to, for any number of items, and each of the three is
compared with it. A symbol of a tree stands where its own turns lead from the tree's root, so moving the root moves
every symbol.
-/

namespace Clvm

namespace Path

/-- The place that turns lead to from a place. -/
def along (p : Path) (turns : List Bool) : Path :=
  turns.foldl (fun p right => p.compose (if right then .right else .left)) p

end Path

namespace Machine

theorem placeAt_side (right : Bool) (t : SExp) :
    placeAt (if right then Path.right else Path.left).index t = descend [right] t := by
  cases right <;> rfl

/-- Going along turns from a place is going to the place, and then taking the turns. -/
theorem placeAt_along (turns : List Bool) {p : Path} (hp : p.index ≠ 0) (env : SExp) :
    placeAt (p.along turns).index env = placeAt p.index env >>= descend turns := by
  induction turns generalizing p with
  | nil => cases h : placeAt p.index env <;> simp only [Path.along, List.foldl_nil, h] <;> rfl
  | cons right turns ih =>
    have hside : (if right then Path.right else Path.left).index ≠ 0 := by cases right <;> decide
    have hone : placeAt (p.compose (if right then .right else .left)).index env =
        placeAt p.index env >>= descend [right] := by
      rw [← funext (placeAt_side right)]
      exact placeAt_compose hp hside env
    show placeAt ((p.compose (if right then .right else .left)).along turns).index env = _
    rw [ih (Path.compose_index_ne_zero hside), hone]
    cases placeAt p.index env with
    | error e => rfl
    | ok t => exact (descend_append [right] turns t).symm

end Machine

namespace Compiler
open Machine

/-! ### Symbols of a tree -/

/-- The entry of a symbol table. -/
def placeEntry (name : Bytes) (place : Path) : SExp := .ofList [.atom name, place.toSExp]

/-- The names in a tree from left to right, each with the turns that lead to it from the root. -/
def spots : SExp → List (Bytes × List Bool)
  | .atom [] => []
  | .atom b => [(b, [])]
  | .pair x y => (spots x).map (fun s => (s.1, false :: s.2)) ++ (spots y).map fun s => (s.1, true :: s.2)

/-- The symbols of a tree stand where their turns lead from the place of the tree. -/
theorem placesOf_eq (root : Path) (t : SExp) :
    placesOf root t = (spots t).map fun s => placeEntry s.1 (root.along s.2) := by
  fun_induction placesOf root t with
  | case1 => rfl
  | case2 root b hb => rw [spots.eq_2 b hb]; rfl
  | case3 root x y ihx ihy =>
    rw [spots, List.map_append, List.map_map, List.map_map, ihx, ihy]
    rfl

/-! ### Balanced trees -/

/-- The turns that lead to each of `n` items of a balanced tree. -/
def slots : Nat → List (List Bool)
  | 0 => []
  | 1 => [[]]
  | n + 2 => (slots ((n + 2) / 2)).map (false :: ·) ++ (slots (n + 2 - (n + 2) / 2)).map (true :: ·)
termination_by n => n
decreasing_by all_goals omega

theorem slots_halves {n : Nat} (h : 2 ≤ n) :
    slots n = (slots (n / 2)).map (false :: ·) ++ (slots (n - n / 2)).map (true :: ·) := by
  obtain ⟨n, rfl⟩ : ∃ k, n = k + 2 := ⟨n - 2, by omega⟩
  rw [slots]

theorem balanced_halves (pair : SExp → SExp → SExp) (empty : SExp) {items : List SExp} (h : 2 ≤ items.length) :
    balanced pair empty items =
      pair (balanced pair empty (items.take (items.length / 2)))
        (balanced pair empty (items.drop (items.length / 2))) := by
  match items, h with
  | x :: y :: more, _ => rw [balanced]

/-- The tree of some names is the pair of the trees of their halves. -/
theorem buildTree_halves {names : List Bytes} (h : 2 ≤ names.length) :
    buildTree (names.map .atom) = .pair (buildTree ((names.take (names.length / 2)).map .atom))
      (buildTree ((names.drop (names.length / 2)).map .atom)) := by
  rw [buildTree, balanced_halves _ _ (by rwa [List.length_map]), List.length_map, ← List.map_take, ← List.map_drop]
  rfl

/-- A property of lists holds if it holds of a list whenever it holds of both its halves. -/
theorem halves_induction {α : Type} {P : List α → Prop} (nil : P []) (single : ∀ x, P [x])
    (halves : ∀ items, 2 ≤ items.length → P (items.take (items.length / 2)) → P (items.drop (items.length / 2)) →
      P items) (items : List α) : P items := by
  induction hn : items.length using Nat.strong_induction_on generalizing items with
  | _ n ih =>
    match items with
    | [] => exact nil
    | [x] => exact single x
    | x :: y :: more =>
      simp only [List.length_cons] at hn
      refine halves _ (by simp) (ih _ ?_ _ rfl) (ih _ ?_ _ rfl)
      · simp only [List.length_take, List.length_cons]
        omega
      · simp only [List.length_drop, List.length_cons]
        omega

theorem length_slots (n : Nat) : (slots n).length = n := by
  fun_induction slots n with
  | case1 => rfl
  | case2 => rfl
  | case3 n ihl ihr =>
    rw [List.length_append, List.length_map, List.length_map, ihl, ihr]
    omega

/-- The names in the balanced tree of some names stand in its slots. -/
theorem spots_buildTree (names : List Bytes) (h : ∀ b ∈ names, b ≠ []) :
    spots (buildTree (names.map .atom)) = names.zip (slots names.length) := by
  induction names using halves_induction with
  | nil => simp [buildTree, balanced, slots, spots, SExp.nil]
  | single b =>
    have hb := h b List.mem_cons_self
    simp [buildTree, balanced, slots, spots.eq_2 b hb]
  | halves names hlen ihl ihr =>
    have hl := ihl fun b hb => h b (List.mem_of_mem_take hb)
    have hr := ihr fun b hb => h b (List.mem_of_mem_drop hb)
    have htake : (names.take (names.length / 2)).length = names.length / 2 := by
      rw [List.length_take]
      omega
    rw [htake] at hl
    rw [List.length_drop] at hr
    have hzip : ∀ (side : Bool) (bs : List Bytes) (ts : List (List Bool)),
        (bs.zip ts).map (fun s => (s.1, side :: s.2)) = bs.zip (ts.map (side :: ·)) := fun side bs ts => by
      rw [List.zip_map_right]
      rfl
    rw [buildTree_halves hlen, spots, hl, hr, hzip, hzip, slots_halves hlen, ← List.zip_append, List.take_append_drop]
    rw [htake, List.length_map, length_slots]

/-- Each item of a balanced tree is found in its slot. -/
theorem descend_buildTree (items : List SExp) :
    List.Forall₂ (fun turns x => descend turns (buildTree items) = .ok x) (slots items.length) items := by
  induction items using halves_induction with
  | nil => simp [slots]
  | single x => simp [slots, buildTree, balanced, descend]
  | halves items hlen ihl ihr =>
    have htake : (items.take (items.length / 2)).length = items.length / 2 := by
      rw [List.length_take]
      omega
    rw [htake] at ihl
    rw [List.length_drop] at ihr
    have htree : buildTree items = .pair (buildTree (items.take (items.length / 2)))
        (buildTree (items.drop (items.length / 2))) := balanced_halves _ _ hlen
    have hl : List.Forall₂ (fun turns x => descend turns (buildTree items) = .ok x)
        ((slots (items.length / 2)).map (false :: ·)) (items.take (items.length / 2)) := by
      rw [htree, List.forall₂_map_left_iff]
      exact ihl
    have hr : List.Forall₂ (fun turns x => descend turns (buildTree items) = .ok x)
        ((slots (items.length - items.length / 2)).map (true :: ·)) (items.drop (items.length / 2)) := by
      rw [htree, List.forall₂_map_left_iff]
      exact ihr
    have hboth : List.Forall₂ _ (_ ++ _) (_ ++ _) := List.rel_append hl hr
    rwa [List.take_append_drop, ← slots_halves hlen] at hboth

/-! ### Computing the tree -/

section Programs
variable {σ : Type} {ops : Operators σ}

/-- A computation goes on from the result and the state of what comes first in it. -/
theorem bind_apply_ok {α β : Type} {x : Computation σ α} (f : α → Computation σ β) {w w' : σ} {a : α}
    (h : x w = some (.ok a, w')) : (x >>= f) w = f a w' := by
  simp only [bind, ExceptT.bind, ExceptT.mk, StateT.bind, h]
  rfl

/-- A program gives a value in an environment, whatever state it starts in. -/
def Yields (ops : Operators σ) (program env v : SExp) : Prop :=
  ∀ w, ∃ w', value ops program env w = some (.ok v, w')

theorem yields_of_value {program env v : SExp} (h : value ops program env = pure v) : Yields ops program env v :=
  fun w => ⟨w, congrFun h w⟩

theorem value_path (n : Nat) (env : SExp) : value ops (Form.path n) env = Computation.ofExcept (placeAt n env) := by
  rw [Form.path, value_atom, lookup_eq_placeAt, Bytes.toNat_ofNat]

theorem value_toSExp (p : Path) (env : SExp) :
    value ops p.toSExp env = Computation.ofExcept (placeAt p.index env) :=
  value_path p.index env

theorem value_cons_of_applyValue
    (hops : ∀ a b, applyValue ops Keyword.cons (.ofList [a, b]) = pure (.pair a b)) (x y env : SExp) :
    value ops (Form.cons x y) env = value ops y env >>= fun b => value ops x env >>= fun a => pure (.pair a b) := by
  show value ops (.pair (.atom Keyword.cons) (.ofList [x, y])) env = _
  rw [value_list (by decide)]
  simp only [values, bind_assoc, pure_bind, hops]

variable [Curve]

/-- A table that has the machine's own `c`. -/
def PairsValues (ops : Operators σ) : Prop := ops.known Keyword.cons = Operators.base.known Keyword.cons

theorem pairsValues_base : PairsValues (Operators.base (σ := σ)) := rfl

theorem pairsValues_operators (settings : Settings) (run : Runner) (fuel : Nat) :
    PairsValues (operators settings run fuel) := rfl

theorem applyValue_cons (hops : PairsValues ops) (a b : SExp) :
    applyValue ops Keyword.cons (.ofList [a, b]) = pure (.pair a b) := by
  have happly : ops.apply Keyword.cons (.ofList [a, b]) = Action.ofExcept (.ok (50, .pair a b)) := by
    rw [Operators.apply, hops]
    rfl
  rw [applyValue, if_neg (by decide), happly]
  rfl

theorem value_cons (hops : PairsValues ops) (x y env : SExp) :
    value ops (Form.cons x y) env = value ops y env >>= fun b => value ops x env >>= fun a => pure (.pair a b) :=
  value_cons_of_applyValue (applyValue_cons hops) x y env

theorem yields_cons (hops : PairsValues ops) {x y env a b : SExp} (hx : Yields ops x env a) (hy : Yields ops y env b) :
    Yields ops (Form.cons x y) env (.pair a b) := by
  intro w
  obtain ⟨w₁, hw₁⟩ := hy w
  obtain ⟨w₂, hw₂⟩ := hx w₁
  refine ⟨w₂, ?_⟩
  rw [value_cons hops, bind_apply_ok _ hw₁, bind_apply_ok _ hw₂]
  rfl

/-- The program of the tree of some constants computes the tree of their values. -/
theorem yields_buildTreeProgram (hops : PairsValues ops) {programs constants : List SExp} {env : SExp}
    (hne : programs ≠ []) (h : List.Forall₂ (fun program v => Yields ops program env v) programs constants) :
    Yields ops (buildTreeProgram programs) env (buildTree constants) := by
  induction programs using halves_induction generalizing constants with
  | nil => exact absurd rfl hne
  | single program =>
    obtain ⟨v, _, hv, hnil, rfl⟩ := List.forall₂_cons_left_iff.mp h
    cases hnil
    simpa [buildTreeProgram, buildTree, balanced] using hv
  | halves programs hlen ihl ihr =>
    have hcount : constants.length = programs.length := h.length_eq.symm
    have hprogram : buildTreeProgram programs = Form.cons (buildTreeProgram (programs.take (programs.length / 2)))
        (buildTreeProgram (programs.drop (programs.length / 2))) := balanced_halves _ _ hlen
    have htree : buildTree constants = .pair (buildTree (constants.take (programs.length / 2)))
        (buildTree (constants.drop (programs.length / 2))) := by
      rw [← hcount]
      exact balanced_halves _ _ (by rwa [hcount])
    rw [hprogram, htree]
    refine yields_cons hops (ihl ?_ (List.forall₂_take _ h)) (ihr ?_ (List.forall₂_drop _ h))
    · intro hnil
      have := congrArg List.length hnil
      rw [List.length_take, List.length_nil] at this
      omega
    · intro hnil
      have := congrArg List.length hnil
      rw [List.length_drop, List.length_nil] at this
      omega

end Programs

/-! ### Constants and parameters in one environment -/

theorem lookupSymbol_placeEntry {names : List Bytes} {places : List Path} (hnames : names.Nodup) {b : Bytes} {p : Path}
    (h : (b, p) ∈ names.zip places) :
    lookupSymbol b (.ofList (names.zipWith placeEntry places)) = .ok (some p.toSExp) := by
  induction names generalizing places with
  | nil => cases h
  | cons name names ih =>
    cases places with
    | nil => cases h
    | cons place places =>
      obtain ⟨hname, hnames⟩ := List.nodup_cons.mp hnames
      show (if SExp.atom name = .atom b then Except.ok (some place.toSExp)
        else lookupSymbol b (.ofList (names.zipWith placeEntry places))) = _
      rcases List.mem_cons.mp h with heq | hmem
      · cases heq
        rw [if_pos rfl]
      · have hne : SExp.atom name ≠ .atom b := by
          intro heq
          cases heq
          exact hname (List.of_mem_zip hmem).1
        rw [if_neg hne]
        exact ih hnames hmem

theorem yields_env {σ : Type} {ops : Operators σ} (env : SExp) : Yields ops Form.env env env :=
  yields_of_value (value_toSExp .top env)

/-- The environment of a module's main expression agrees with the symbol tables it is compiled with. The program that
pairs the tree of some constants with the environment yields an environment `E` in which every name of the constants'
symbol table is found, once and in order, at the place of its constant. A parameter is found in `E` through the table
for its place there just as it is found in the environment itself. -/
theorem module_environment_agrees [Curve] {σ : Type} {ops : Operators σ} (hops : PairsValues ops) {names : List Bytes}
    {programs constants : List SExp} (hne : names ≠ []) (hnodup : names.Nodup) (hfull : ∀ b ∈ names, b ≠ [])
    (hcount : programs.length = names.length)
    (hconstant : List.Forall₂ (fun program v => ∀ env, Yields ops program env v) programs constants) (env : SExp) :
    ∃ E, Yields ops (Form.cons (buildTreeProgram programs) Form.env) env E ∧
      (∃ places : List Path,
        placesOf .left (buildTree (names.map .atom)) = names.zipWith placeEntry places ∧
        List.Forall₂ (fun place v => value ops place.toSExp E = pure v) places constants ∧
        ∀ b p, (b, p) ∈ names.zip places →
          lookupSymbol b (.ofList (placesOf .left (buildTree (names.map .atom)))) = .ok (some p.toSExp)) ∧
      ∀ parameters, List.Forall₂
        (fun inner outer => ∃ b p q, inner = placeEntry b p ∧ outer = placeEntry b q ∧
          value ops p.toSExp E = value ops q.toSExp env)
        (placesOf .right parameters) (placesOf .top parameters) := by
  have hprograms : programs ≠ [] := by
    intro hnil
    rw [hnil] at hcount
    exact hne (List.length_eq_zero_iff.mp hcount.symm)
  have htree := yields_buildTreeProgram hops hprograms (hconstant.imp fun _ _ h => h env)
  refine ⟨.pair (buildTree constants) env, yields_cons hops htree (yields_env env), ?_, fun parameters => ?_⟩
  · have hlen : names.length = constants.length := hcount.symm.trans hconstant.length_eq
    have htable : placesOf .left (buildTree (names.map .atom)) =
        names.zipWith placeEntry ((slots names.length).map Path.left.along) := by
      rw [placesOf_eq, spots_buildTree names hfull, List.map_zip_eq_zipWith, List.zipWith_map_right]
      rfl
    refine ⟨(slots names.length).map Path.left.along, htable, ?_, fun b p hp => ?_⟩
    · rw [hlen, List.forall₂_map_left_iff]
      refine (descend_buildTree constants).imp fun turns v hv => ?_
      rw [value_toSExp, placeAt_along turns (by decide)]
      show Computation.ofExcept (descend turns (buildTree constants)) = _
      rw [hv]
      rfl
    · rw [htable]
      exact lookupSymbol_placeEntry hnodup hp
  · rw [placesOf_eq, placesOf_eq, List.forall₂_map_left_iff, List.forall₂_map_right_iff, List.forall₂_same]
    intro s _
    refine ⟨s.1, _, _, rfl, rfl, ?_⟩
    rw [value_toSExp, value_toSExp, placeAt_along _ (by decide), placeAt_along _ (by decide)]
    rfl

/-- Three constants, one of which is computed, beside one argument. -/
theorem module_environment_agrees_three :
    let names : List Bytes := [[97], [98], [99]]
    let programs := [Form.quote (.atom [5]), Form.cons (Form.quote (.atom [6])) (Form.quote .nil), Form.quote .nil]
    let constants := [SExp.atom [5], .pair (.atom [6]) .nil, .nil]
    let env := SExp.pair (.atom [7]) .nil
    let ops : Operators Unit := Operators.base
    PairsValues ops ∧ names ≠ [] ∧ names.Nodup ∧ (∀ b ∈ names, b ≠ []) ∧ programs.length = names.length ∧
    List.Forall₂ (fun program v => ∀ env, Yields ops program env v) programs constants ∧
    ∃ E, Yields ops (Form.cons (buildTreeProgram programs) Form.env) env E ∧
      (∃ places : List Path,
        placesOf .left (buildTree (names.map .atom)) = names.zipWith placeEntry places ∧
        List.Forall₂ (fun place v => value ops place.toSExp E = pure v) places constants ∧
        ∀ b p, (b, p) ∈ names.zip places →
          lookupSymbol b (.ofList (placesOf .left (buildTree (names.map .atom)))) = .ok (some p.toSExp)) ∧
      ∀ parameters, List.Forall₂
        (fun inner outer => ∃ b p q, inner = placeEntry b p ∧ outer = placeEntry b q ∧
          value ops p.toSExp E = value ops q.toSExp env)
        (placesOf .right parameters) (placesOf .top parameters) := by
  intro names programs constants env ops
  have hquote : ∀ t env, Yields ops (Form.quote t) env t := fun t env => yields_of_value (value_quote t env)
  have hconstant : List.Forall₂ (fun program v => ∀ env, Yields ops program env v) programs constants :=
    .cons (hquote _) (.cons (fun env => yields_cons pairsValues_base (hquote _ env) (hquote _ env))
      (.cons (hquote _) .nil))
  have hfull : ∀ b ∈ names, b ≠ [] := by decide
  exact ⟨pairsValues_base, by decide, by decide, hfull, rfl, hconstant,
    module_environment_agrees pairsValues_base (by decide) (by decide) hfull rfl hconstant env⟩

end Compiler
end Clvm
