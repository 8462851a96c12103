import Clvm.Compiler.Word
import Clvm.Proofs.Machine.Meaning
import Clvm.Proofs.Pattern
import Clvm.Session

/-!
# Templates

What a quasi-quotation should give, said without compiling it. A template is a tree in which the forms `(qq t)` and
`(unquote t)` are marked. Its outline keeps everything but the unquoted forms whose level has come down to zero: these are
holes, and hold the expression to be put there. Holes are filled with programs from left to right, and the programs are
run from right to left.
-/

namespace Clvm.Compiler

/-! ### Forms with one argument -/

/-- Every pair that starts with the word is a list of it and one argument. -/
def Unary (op : Bytes) (t : SExp) : Prop :=
  ∀ tail, .pair (.atom op) tail ∈ Pattern.subtrees t → ∃ x, tail = .ofList [x]

theorem unary_atom (op b : Bytes) : Unary op (.atom b) := by simp [Unary, Pattern.subtrees]

theorem unary_pair {op : Bytes} {x y : SExp} :
    Unary op (.pair x y) ↔ (x = .atom op → ∃ z, y = .ofList [z]) ∧ Unary op x ∧ Unary op y := by
  simp only [Unary, Pattern.subtrees, List.mem_cons, List.mem_append, SExp.pair.injEq, or_imp, forall_and, and_imp]
  refine and_congr_left fun _ => ⟨fun h hx => h y hx.symm rfl, ?_⟩
  rintro h _ hx rfl
  exact h hx.symm

def isSingle : SExp → Bool
  | .pair _ (.atom []) => true
  | _ => false

theorem isSingle_iff {t : SExp} : isSingle t = true ↔ ∃ x, t = .ofList [x] := by
  rw [isSingle.eq_def]
  split
  · exact ⟨fun _ => ⟨_, rfl⟩, fun _ => rfl⟩
  · rename_i hlist
    refine ⟨nofun, ?_⟩
    rintro ⟨x, rfl⟩
    exact absurd rfl (hlist x)

instance Unary.decidable (op : Bytes) : (t : SExp) → Decidable (Unary op t)
  | .atom b => isTrue (unary_atom op b)
  | .pair x y =>
    have := Unary.decidable op x
    have := Unary.decidable op y
    decidable_of_iff ((x = .atom op → isSingle y = true) ∧ Unary op x ∧ Unary op y) (by rw [unary_pair, isSingle_iff])

theorem unary_of_not_mem {op : Bytes} {t : SExp} (h : op ∉ t.leaves) : Unary op t := by
  induction t with
  | atom b => exact unary_atom op b
  | pair x y ihx ihy =>
    simp only [SExp.leaves, List.mem_append, not_or] at h
    refine unary_pair.mpr ⟨?_, ihx h.1, ihy h.2⟩
    rintro rfl
    exact absurd (List.mem_singleton_self op) h.1

/-! ### Trees with holes -/

/-- A tree with something else in place of some parts. -/
inductive Outline (α : Type) where
  | leaf (b : Bytes)
  | hole (a : α)
  | pair (x y : Outline α)

namespace Outline

variable {α β γ : Type}

/-- The list of a word and one argument. -/
def form (op : Bytes) (x : Outline α) : Outline α := .pair (.leaf op) (.pair x (.leaf []))

def map (f : α → β) : Outline α → Outline β
  | .leaf b => .leaf b
  | .hole a => .hole (f a)
  | .pair x y => .pair (map f x) (map f y)

/-- What stands in the holes, from left to right. -/
def holes : Outline α → List α
  | .leaf _ => []
  | .hole a => [a]
  | .pair x y => holes x ++ holes y

/-- The holes are dealt with from left to right, each in the session that the one before it leaves. -/
inductive Threads (R : α → Session → β → Session → Prop) : Outline α → Session → Outline β → Session → Prop where
  | leaf (b : Bytes) (w : Session) : Threads R (.leaf b) w (.leaf b) w
  | hole {a : α} {b : β} {w w' : Session} (h : R a w b w') : Threads R (.hole a) w (.hole b) w'
  | pair {x y : Outline α} {x' y' : Outline β} {w w₁ w' : Session} (hx : Threads R x w x' w₁)
      (hy : Threads R y w₁ y' w') : Threads R (.pair x y) w (.pair x' y') w'

theorem form_inj {op : Bytes} {x y : Outline α} : form op x = form op y ↔ x = y := by simp [form]

theorem map_form (f : α → β) (op : Bytes) (x : Outline α) : (form op x).map f = form op (x.map f) := rfl

theorem holes_form (op : Bytes) (x : Outline α) : (form op x).holes = x.holes := by simp [form, holes]

/-- The tree with the values of the programs in the holes, of which the last is run first. -/
def value {σ : Type} (ops : Operators σ) (env : SExp) : Outline SExp → Machine.Computation σ SExp
  | .leaf b => pure (.atom b)
  | .hole program => Machine.value ops program env
  | .pair x y => do
    let b ← value ops env y
    let a ← value ops env x
    return .pair a b

theorem value_form {σ : Type} {ops : Operators σ} {env : SExp} (op : Bytes) (o : Outline SExp) :
    (form op o).value ops env = o.value ops env >>= fun v => pure (.ofList [.atom op, v]) := by
  simp only [form, value, pure_bind, bind_assoc]
  rfl

theorem map_map (f : α → β) (g : β → γ) (o : Outline α) : (o.map f).map g = o.map fun a => g (f a) := by
  induction o with
  | leaf b => rfl
  | hole a => rfl
  | pair x y ihx ihy => rw [map, map, map, ihx, ihy]

theorem map_id (o : Outline α) : (o.map fun a => a) = o := by
  induction o with
  | leaf b => rfl
  | hole a => rfl
  | pair x y ihx ihy => rw [map, ihx, ihy]

theorem Threads.map {α' β' : Type} {R : α → Session → β → Session → Prop} {S : α' → Session → β' → Session → Prop}
    {f : α → α'} {g : β → β'} (hRS : ∀ a w b w', R a w b w' → S (f a) w (g b) w') {x : Outline α} {y : Outline β}
    {w w' : Session} (h : Threads R x w y w') : Threads S (x.map f) w (y.map g) w' := by
  induction h with
  | leaf b w => exact .leaf b w
  | hole h => exact .hole (hRS _ _ _ _ h)
  | pair _ _ ihx ihy => exact .pair ihx ihy

theorem Threads.form {R : α → Session → β → Session → Prop} {x : Outline α} {y : Outline β} {w w' : Session} (op : Bytes)
    (h : Threads R x w y w') : Threads R (.form op x) w (.form op y) w' := .pair (.leaf op w) (.pair h (.leaf [] w'))

theorem Threads.of_form {R : α → Session → β → Session → Prop} {op : Bytes} {x : Outline α} {o : Outline β}
    {w w' : Session} (h : Threads R (.form op x) w o w') : ∃ x', o = .form op x' ∧ Threads R x w x' w' := by
  obtain _ | _ | ⟨⟨⟩, _ | _ | ⟨h, ⟨⟩⟩⟩ := h
  exact ⟨_, rfl, h⟩

/-- Programs that have the same values may stand for each other in the holes. -/
theorem value_congr {σ : Type} {ops : Operators σ} {env : SExp} {f g : α → SExp} {o : Outline α}
    (h : ∀ a ∈ o.holes, Machine.value ops (f a) env = Machine.value ops (g a) env) :
    (o.map f).value ops env = (o.map g).value ops env := by
  induction o with
  | leaf b => rfl
  | hole a => exact h a (List.mem_singleton_self a)
  | pair x y ihx ihy =>
    rw [map, map, value, value, ihx fun a ha => h a (List.mem_append_left _ ha),
      ihy fun a ha => h a (List.mem_append_right _ ha)]

end Outline

/-! ### Templates -/

inductive Template where
  | leaf (b : Bytes)
  | quasi (t : Template)
  | unquote (t : Template)
  | pair (x y : Template)

namespace Template

def toTree : Template → SExp
  | .leaf b => .atom b
  | .quasi t => .ofList [.atom Word.quasi, toTree t]
  | .unquote t => .ofList [.atom Word.unquote, toTree t]
  | .pair x y => .pair (toTree x) (toTree y)

/-- Marks the forms of a tree that have one argument. -/
def ofTree : SExp → Template
  | .atom b => .leaf b
  | .pair x (.pair y (.atom [])) =>
    if x = .atom Word.quasi then .quasi (ofTree y)
    else if x = .atom Word.unquote then .unquote (ofTree y)
    else .pair (ofTree x) (.pair (ofTree y) (.leaf []))
  | .pair x y => .pair (ofTree x) (ofTree y)

/-- Every form has one argument: all that start with one of the words are marked. -/
def WellFormed : Template → Prop
  | .leaf _ => True
  | .quasi t => t.WellFormed
  | .unquote t => t.WellFormed
  | .pair x y => x ≠ .leaf Word.quasi ∧ x ≠ .leaf Word.unquote ∧ x.WellFormed ∧ y.WellFormed

/-- There is a `qq` form outside all unquoted ones. -/
def HasInner : Template → Prop
  | .leaf _ => False
  | .quasi _ => True
  | .unquote _ => False
  | .pair x y => x.HasInner ∨ y.HasInner

/-- What a template should become at a level: a `qq` form raises the level, an `unquote` form lowers it, and one that stands
at level zero is a hole. -/
def outline : Nat → Template → Outline SExp
  | _, .leaf b => .leaf b
  | n, .quasi t => .form Word.quasi (outline (n + 1) t)
  | 0, .unquote t => .hole t.toTree
  | n + 1, .unquote t => .form Word.unquote (outline n t)
  | n, .pair x y => .pair (outline n x) (outline n y)

theorem toTree_ofTree (t : SExp) : (ofTree t).toTree = t := by
  fun_induction ofTree t with
  | case1 b => rfl
  | case2 y ih => rw [toTree, ih]; rfl
  | case3 y _ ih => rw [toTree, ih]; rfl
  | case4 x y _ _ ihx ihy => rw [toTree, toTree, toTree, ihx, ihy]
  | case5 x y _ ihx ihy => rw [toTree, ihx, ihy]

theorem eq_leaf_of_toTree {t : Template} {b : Bytes} (h : t.toTree = .atom b) : t = .leaf b := by
  cases t with
  | leaf c => rw [SExp.atom.inj h]
  | quasi t => cases h
  | unquote t => cases h
  | pair x y => cases h

theorem quasi_mem_of_hasInner {t : Template} (h : t.HasInner) : Word.quasi ∈ t.toTree.leaves := by
  induction t with
  | leaf b => cases h
  | quasi t _ => exact List.mem_cons_self
  | unquote t _ => cases h
  | pair x y ihx ihy => exact List.mem_append.mpr (h.imp ihx ihy)

theorem ofTree_eq_leaf {x : SExp} {b : Bytes} (h : ofTree x = .leaf b) : x = .atom b := by
  rw [← toTree_ofTree x, h, toTree]

theorem wellFormed_ofTree {t : SExp} (hquasi : Unary Word.quasi t) (hunquote : Unary Word.unquote t) :
    (ofTree t).WellFormed := by
  fun_induction ofTree t with
  | case1 b => trivial
  | case2 y ih =>
    rw [unary_pair, unary_pair] at hquasi hunquote
    exact ih hquasi.2.2.2.1 hunquote.2.2.2.1
  | case3 y _ ih =>
    rw [unary_pair, unary_pair] at hquasi hunquote
    exact ih hquasi.2.2.2.1 hunquote.2.2.2.1
  | case4 x y hx hx' ihx ihy =>
    rw [unary_pair, unary_pair] at hquasi hunquote
    obtain ⟨-, hqx, hqy, hqy', -⟩ := hquasi
    obtain ⟨-, hux, huy, huy', -⟩ := hunquote
    -- the tail is the list of `y` alone, so `y` is not one of the words
    refine ⟨mt ofTree_eq_leaf hx, mt ofTree_eq_leaf hx', ihx hqx hux, fun h => ?_, fun h => ?_, ihy hqy' huy', trivial⟩
    · obtain ⟨z, ⟨⟩⟩ := hqy (ofTree_eq_leaf h)
    · obtain ⟨z, ⟨⟩⟩ := huy (ofTree_eq_leaf h)
  | case5 x y hlist ihx ihy =>
    obtain ⟨hq, hqx, hqy⟩ := unary_pair.mp hquasi
    obtain ⟨hu, hux, huy⟩ := unary_pair.mp hunquote
    refine ⟨fun h => ?_, fun h => ?_, ihx hqx hux, ihy hqy huy⟩
    · obtain ⟨z, rfl⟩ := hq (ofTree_eq_leaf h)
      exact hlist z rfl
    · obtain ⟨z, rfl⟩ := hu (ofTree_eq_leaf h)
      exact hlist z rfl

end Template
end Clvm.Compiler
