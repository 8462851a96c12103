import Clvm.Proofs.Form
import Clvm.SExp.Serial

/-!
# Reading trees from bytes

A tree is read from the front of some bytes. What follows the tree is not looked at, so it may be anything, and is left
over. Depth is no limit as long as there is more of it than there are bytes. A pair is read from the bytes of its two
parts, the second from what the first leaves over and all that comes after it.
-/

namespace Clvm.SExp
open Machine

/-! ### Reading from the front -/

/-- A reader that takes some bytes from the front, and would take the same ones in front of any others. -/
def ReadsFront {α : Type} (read : Bytes → Except Error (α × Bytes)) : Prop :=
  ∀ input a rest, read input = .ok (a, rest) → ∃ used, input = used ++ rest ∧ ∀ more, read (used ++ more) = .ok (a, more)

section
variable {α β : Type}

theorem readsFront_pure (a : α) : ReadsFront fun input => .ok (a, input) := by
  intro input b rest h
  cases h
  exact ⟨[], rfl, fun _ => rfl⟩

theorem readsFront_error (e : Error) : ReadsFront fun _ => (.error e : Except Error (α × Bytes)) :=
  fun _ _ _ h => by cases h

theorem readsFront_bind {f : Bytes → Except Error (α × Bytes)} {g : α → Bytes → Except Error (β × Bytes)}
    (hf : ReadsFront f) (hg : ∀ a, ReadsFront (g a)) : ReadsFront fun input => f input >>= fun r => g r.1 r.2 := by
  intro input b rest h
  obtain ⟨⟨a, middle⟩, ha, hb⟩ := bind_eq_ok.mp h
  obtain ⟨used, rfl, hused⟩ := hf input a middle ha
  obtain ⟨used', rfl, hused'⟩ := hg a middle b rest hb
  refine ⟨used ++ used', (List.append_assoc ..).symm, fun more => ?_⟩
  have hfront := hused (used' ++ more)
  rw [← List.append_assoc] at hfront
  exact bind_eq_ok.mpr ⟨(a, used' ++ more), hfront, hused' more⟩

theorem ReadsFront.append {read : Bytes → Except Error (α × Bytes)} (h : ReadsFront read) {input rest : Bytes} {a : α}
    (hread : read input = .ok (a, rest)) (more : Bytes) : read (input ++ more) = .ok (a, rest ++ more) := by
  obtain ⟨used, rfl, hused⟩ := h input a rest hread
  rw [List.append_assoc]
  exact hused _

theorem ReadsFront.length_le {read : Bytes → Except Error (α × Bytes)} (h : ReadsFront read) {input rest : Bytes} {a : α}
    (hread : read input = .ok (a, rest)) : rest.length ≤ input.length := by
  obtain ⟨used, rfl, -⟩ := h input a rest hread
  rw [List.length_append]
  omega

end

theorem readsFront_takeBytes (n : Nat) : ReadsFront (takeBytes n) := by
  intro input b rest h
  rw [takeBytes] at h
  split at h
  · rename_i hlength
    cases h
    refine ⟨input.take n, (List.take_append_drop n input).symm, fun more => ?_⟩
    rw [takeBytes, List.take_left' hlength, List.drop_left' hlength, if_pos hlength]
  · cases h

theorem readsFront_readAtom (x : UInt8) : ReadsFront (readAtom x) := by
  unfold readAtom
  by_cases hnil : x = 0x80
  · simp only [if_pos hnil]
    exact readsFront_pure []
  · by_cases hbyte : x ≤ 0x7f
    · simp only [if_neg hnil, if_pos hbyte]
      exact readsFront_pure [x]
    · simp only [if_neg hnil, if_neg hbyte]
      -- the bytes of the length are taken first, and as many for the atom as they say
      let size (more : Bytes) := x.toNat % Nat.pow 2 (7 - leadingOnes x) * Nat.pow 256 (leadingOnes x - 1) + Bytes.toNat more
      refine readsFront_bind (readsFront_takeBytes _) fun more =>
        (?_ : ReadsFront fun input => if atomLimit ≤ size more then .error .blobTooLarge else takeBytes (size more) input)
      by_cases hlimit : atomLimit ≤ size more
      · simp only [if_pos hlimit]
        exact readsFront_error _
      · simp only [if_neg hlimit]
        exact readsFront_takeBytes _

/-! ### Trees -/

theorem readTree_pair (depth : Nat) (input : Bytes) :
    readTree (depth + 1) (0xff :: input) =
      readTree depth input >>= fun x => readTree depth x.2 >>= fun y => .ok (.pair x.1 y.1, y.2) := rfl

theorem readTree_atom {x : UInt8} (hx : x ≠ 0xff) (depth : Nat) (input : Bytes) :
    readTree (depth + 1) (x :: input) = readAtom x input >>= fun b => .ok (.atom b.1, b.2) := by
  rw [readTree, if_neg hx]
  rfl

theorem readsFront_readTree (depth : Nat) : ReadsFront (readTree depth) := by
  induction depth with
  | zero => exact readsFront_error _
  | succ depth ih =>
    intro input t rest h
    cases input with
    | nil => cases h
    | cons x input =>
      by_cases hx : x = 0xff
      · subst hx
        have hparts := readsFront_bind ih fun first => readsFront_bind ih fun y => readsFront_pure (pair first y)
        obtain ⟨used, rfl, hused⟩ := hparts input t rest h
        exact ⟨0xff :: used, rfl, hused⟩
      · rw [readTree_atom hx] at h
        have hatom := readsFront_bind (readsFront_readAtom x) fun b => readsFront_pure (atom b)
        obtain ⟨used, rfl, hused⟩ := hatom input t rest h
        refine ⟨x :: used, rfl, fun more => ?_⟩
        rw [List.cons_append, readTree_atom hx]
        exact hused more

/-- Any depth above the number of bytes is enough, also to fail. -/
theorem readTree_eq_of_lt {d d' : Nat} {input : Bytes} (h : input.length < d) (h' : input.length < d') :
    readTree d input = readTree d' input := by
  induction d generalizing d' input with
  | zero => exact absurd h (Nat.not_lt_zero _)
  | succ d ih =>
    obtain ⟨d', rfl⟩ : ∃ k, d' = k + 1 := ⟨d' - 1, by omega⟩
    cases input with
    | nil => rfl
    | cons x input =>
      rw [List.length_cons] at h h'
      by_cases hx : x = 0xff
      · subst hx
        rw [readTree_pair, readTree_pair, ih (by omega) (show input.length < d' by omega)]
        cases hfirst : readTree d' input with
        | error e => rfl
        | ok r =>
          have hlength := (readsFront_readTree d').length_le hfirst
          rw [ok_bind, ok_bind, ih (by omega) (show r.2.length < d' by omega)]
      · rw [readTree_atom hx, readTree_atom hx]

theorem deserializeWithRest_append {input rest : Bytes} {t : SExp} (h : deserializeWithRest input = .ok (t, rest))
    (more : Bytes) : deserializeWithRest (input ++ more) = .ok (t, rest ++ more) := by
  have hdepth : readTree ((input ++ more).length + 1) input = .ok (t, rest) := by
    rw [← h]
    exact readTree_eq_of_lt (by rw [List.length_append]; omega) (Nat.lt_succ_self _)
  exact (readsFront_readTree _).append hdepth more

theorem deserialize_of_withRest {input rest : Bytes} {t : SExp} (h : deserializeWithRest input = .ok (t, rest)) :
    deserialize input = .ok t := by
  rw [deserialize, h]
  rfl

/-- Bytes after a tree do not count. -/
theorem deserialize_append {input : Bytes} {t : SExp} (h : deserialize input = .ok t) (more : Bytes) :
    deserialize (input ++ more) = .ok t := by
  obtain ⟨r, hread, rfl⟩ := map_eq_ok.mp h
  exact deserialize_of_withRest (deserializeWithRest_append hread more)

/-- The first part of a pair is the tree at the front of the bytes after the mark, and the second what the bytes after
that tree are read as. -/
theorem deserialize_pair {input rest : Bytes} {t : SExp} (h : deserializeWithRest input = .ok (t, rest)) (more : Bytes) :
    deserialize (0xff :: input ++ more) = .pair t <$> deserialize (rest ++ more) := by
  have hfirst := deserializeWithRest_append h more
  have hlength := (readsFront_readTree _).length_le hfirst
  have hrest : readTree ((input ++ more).length + 1) (rest ++ more) = deserializeWithRest (rest ++ more) :=
    readTree_eq_of_lt (by omega) (Nat.lt_succ_self _)
  rw [deserializeWithRest] at hfirst
  rw [deserialize, deserialize, deserializeWithRest, List.cons_append, List.length_cons, readTree_pair, hfirst, ok_bind,
    hrest]
  cases deserializeWithRest (rest ++ more) <;> rfl

end Clvm.SExp
