import Clvm.Error.Basic
import Clvm.Text.Utf8

/-!
# Patterns

A pattern is a tree. Its atoms match themselves; `($ . name)` matches any atom and `(: . name)` any tree,
and binds it to the name; any other pair matches a pair part by part. A name that is bound already matches
only what it is bound to. `($ . $)` and `(: . :)` match the one atom and give no bindings.
-/

namespace Clvm.Pattern

/-- Names and what they are bound to, in the order in which they were bound. -/
abbrev Bindings := List (String × SExp)

/-- The mark that binds an atom. -/
def atomMark : Bytes := [0x24]

/-- The mark that binds any tree. -/
def treeMark : Bytes := [0x3a]

/-- Binds a name, or checks that it is bound to the same tree. -/
def bindName (known : Bindings) (name : SExp) (t : SExp) : Except Error (Option Bindings) :=
  match name with
  | .pair _ _ => .error .notAnAtom
  | .atom b =>
    match Text.Utf8.decode? b with
    | none => .error .notText
    | some cs =>
      let key := String.ofList cs
      match known.lookup key with
      | some old => .ok (if old = t then some known else none)
      | none => .ok (some (known ++ [(key, t)]))

/-- The bindings under which a tree matches a pattern, starting from those that are known. -/
def matchTree (known : Bindings) : SExp → SExp → Except Error (Option Bindings)
  | .atom p, .atom b => .ok (if p = b then some known else none)
  | .atom _, .pair _ _ => .ok none
  | .pair left right, t =>
    if left = .atom atomMark then
      match t with
      | .pair _ _ => .ok none
      | .atom b =>
        if right = .atom atomMark then .ok (if b = atomMark then some [] else none)
        else bindName known right t
    else if left = .atom treeMark then
      if right = .atom treeMark then .ok (if t = .atom treeMark then some [] else none)
      else bindName known right t
    else
      match t with
      | .atom _ => .ok none
      | .pair x y => do
        match ← matchTree known left x with
        | none => return none
        | some found => matchTree found right y

/-- A pair that starts with no mark matches part by part. -/
theorem matchTree_pair_eq_some {known found : Bindings} {left right t : SExp} (hatom : left ≠ .atom atomMark)
    (htree : left ≠ .atom treeMark) : matchTree known (.pair left right) t = .ok (some found) ↔
      ∃ x y middle, t = .pair x y ∧ matchTree known left x = .ok (some middle) ∧
        matchTree middle right y = .ok (some found) := by
  constructor
  · intro h
    cases t with
    | atom b =>
      simp only [matchTree, if_neg hatom, if_neg htree] at h
      cases h
    | pair x y =>
      simp only [matchTree, if_neg hatom, if_neg htree] at h
      cases hleft : matchTree known left x with
      | error e =>
        rw [hleft] at h
        cases h
      | ok middle =>
        cases middle with
        | none =>
          rw [hleft] at h
          cases h
        | some middle =>
          rw [hleft] at h
          exact ⟨x, y, middle, rfl, hleft, h⟩
  · rintro ⟨x, y, middle, rfl, hleft, hright⟩
    simp only [matchTree, if_neg hatom, if_neg htree, hleft]
    exact hright

section Size
variable {known found : Bindings} {p t : SExp}

theorem mem_of_bindName {name : SExp} (h : bindName known name t = .ok (some found)) :
    ∀ b ∈ found, b ∈ known ∨ b.2 = t := by
  intro b hb
  cases name with
  | pair x y => cases h
  | atom name =>
    simp only [bindName] at h
    split at h
    · cases h
    · split at h
      · split at h
        · cases h
          exact .inl hb
        · cases h
      · cases h
        simp only [List.mem_append, List.mem_singleton] at hb
        rcases hb with hb | rfl
        · exact .inl hb
        · exact .inr rfl

/-- What matching finds is part of the tree. -/
theorem sizeOf_le_of_matchTree (h : matchTree known p t = .ok (some found)) :
    ∀ b ∈ found, b ∈ known ∨ sizeOf b.2 ≤ sizeOf t := by
  intro b hb
  fun_induction matchTree known p t generalizing found with
  | case1 known p q =>
    split at h
    · cases h
      exact .inl hb
    · cases h
  | case2 => cases h
  | case3 => cases h
  | case4 known q =>
    split at h
    · cases h
      cases hb
    · cases h
  | case5 known right q _ => exact (mem_of_bindName h b hb).imp_right fun heq => Nat.le_of_eq (congrArg sizeOf heq)
  | case6 known t _ =>
    split at h
    · cases h
      cases hb
    · cases h
  | case7 known right t _ _ => exact (mem_of_bindName h b hb).imp_right fun heq => Nat.le_of_eq (congrArg sizeOf heq)
  | case8 => cases h
  | case9 known left right hatom htree x y ihl ihr =>
    have hpair : matchTree known (.pair left right) (.pair x y) = .ok (some found) := by
      simp only [matchTree, if_neg hatom, if_neg htree]
      exact h
    obtain ⟨_, _, middle, ⟨⟩, hleft, hright⟩ := (matchTree_pair_eq_some hatom htree).mp hpair
    rw [SExp.pair.sizeOf_spec]
    rcases ihr middle hright hb with hmiddle | hle
    · exact (ihl hleft hmiddle).imp_right fun hle => by omega
    · exact .inr (by omega)

/-- Nothing that a pair of patterns finds is the whole tree. -/
theorem sizeOf_lt_of_matchTree {left right : SExp} (hatom : left ≠ .atom atomMark) (htree : left ≠ .atom treeMark)
    (h : matchTree [] (.pair left right) t = .ok (some found)) : ∀ b ∈ found, sizeOf b.2 < sizeOf t := by
  intro b hb
  obtain ⟨x, y, middle, rfl, hleft, hright⟩ := (matchTree_pair_eq_some hatom htree).mp h
  rw [SExp.pair.sizeOf_spec]
  rcases sizeOf_le_of_matchTree hright b hb with hmiddle | hle
  · rcases sizeOf_le_of_matchTree hleft b hmiddle with hnone | hle
    · cases hnone
    · omega
  · omega

end Size

/-- Bindings in the order of their names. -/
def sorted (b : Bindings) : Bindings := b.mergeSort fun x y => decide (x.1 ≤ y.1)

end Clvm.Pattern
