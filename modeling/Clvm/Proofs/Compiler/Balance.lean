import Clvm.Proofs.Compiler.Places
import Mathlib.Data.Nat.Log

/-!
# Balanced trees

The tree of some names holds each of them once and in order, and all its leaves are about equally deep: halving a
number of items takes one from the logarithm of the number, whether it is rounded down or up. So no path to a name is
longer than it has to be, by more than one turn.
-/

namespace Clvm.Compiler
open Machine

/-! ### Halving -/

theorem log_halves {n : Nat} (h : 2 ≤ n) :
    Nat.log 2 n ≤ Nat.log 2 (n / 2) + 1 ∧ Nat.log 2 n ≤ Nat.log 2 (n - n / 2) + 1 := by
  have hlog : Nat.log 2 n = Nat.log 2 (n / 2) + 1 := Nat.log_of_one_lt_of_le (by decide) h
  have hmono : Nat.log 2 (n / 2) ≤ Nat.log 2 (n - n / 2) := Nat.log_mono_right (by omega)
  omega

theorem clog_halves {n : Nat} (h : 2 ≤ n) :
    Nat.clog 2 (n / 2) + 1 ≤ Nat.clog 2 n ∧ Nat.clog 2 (n - n / 2) + 1 ≤ Nat.clog 2 n := by
  have hclog : Nat.clog 2 n = Nat.clog 2 ((n + 1) / 2) + 1 := Nat.clog_of_two_le (by decide) h
  have hsmall : Nat.clog 2 (n / 2) ≤ Nat.clog 2 ((n + 1) / 2) := Nat.clog_mono_right 2 (by omega)
  have hlarge : Nat.clog 2 (n - n / 2) ≤ Nat.clog 2 ((n + 1) / 2) := Nat.clog_mono_right 2 (by omega)
  omega

/-- Rounding up gives at most one more than rounding down. -/
theorem clog_le_log_succ (n : Nat) : Nat.clog 2 n ≤ Nat.log 2 n + 1 :=
  Nat.clog_le_of_le_pow (Nat.lt_pow_succ_log_self (by decide) n).le

/-! ### Leaves -/

theorem leaves_buildTree {names : List Bytes} (h : names ≠ []) : (buildTree (names.map .atom)).leaves = names := by
  induction names using halves_induction with
  | nil => exact absurd rfl h
  | single b => simp [buildTree, balanced, SExp.leaves]
  | halves names hlen ihl ihr =>
    have hl := ihl (List.ne_nil_of_length_pos (by rw [List.length_take]; omega))
    have hr := ihr (List.ne_nil_of_length_pos (by rw [List.length_drop]; omega))
    rw [buildTree_halves hlen, SExp.leaves, hl, hr, List.take_append_drop]

/-- No leaf of a tree of names lies deeper than the logarithm of their number rounded up, nor less deep than it rounded
down. -/
theorem depth_bounds {names : List Bytes} (h : names ≠ []) {turns : List Bool} {b : Bytes}
    (hleaf : descend turns (buildTree (names.map .atom)) = .ok (.atom b)) :
    Nat.log 2 names.length ≤ turns.length ∧ turns.length ≤ Nat.clog 2 names.length := by
  induction names using halves_induction generalizing turns with
  | nil => exact absurd rfl h
  | single c =>
    have htree : buildTree ([c].map .atom) = .atom c := by simp [buildTree, balanced]
    rw [htree] at hleaf
    cases turns with
    | nil => simp
    | cons side turns => cases hleaf
  | halves names hlen ihl ihr =>
    have htake : (names.take (names.length / 2)).length = names.length / 2 := by
      rw [List.length_take]
      omega
    have hdrop : (names.drop (names.length / 2)).length = names.length - names.length / 2 := List.length_drop
    have hlog := log_halves hlen
    have hclog := clog_halves hlen
    rw [buildTree_halves hlen] at hleaf
    cases turns with
    | nil => cases hleaf
    | cons side turns =>
      rw [List.length_cons]
      -- one turn leads into a half, whose logarithms are smaller by one
      cases side with
      | false =>
        have hbounds := ihl (List.ne_nil_of_length_pos (by omega)) hleaf
        rw [htake] at hbounds
        omega
      | true =>
        have hbounds := ihr (List.ne_nil_of_length_pos (by omega)) hleaf
        rw [hdrop] at hbounds
        omega

/-- The leaves of the tree of some names are the names in their order, and each of them lies as deep as the logarithm of
their number, rounded down or up. -/
theorem buildTree_balanced {names : List Bytes} (h : 1 ≤ names.length) :
    (buildTree (names.map .atom)).leaves = names ∧
      ∀ turns b, descend turns (buildTree (names.map .atom)) = .ok (.atom b) →
        turns.length = Nat.log 2 names.length ∨ turns.length = Nat.clog 2 names.length := by
  have hne : names ≠ [] := List.ne_nil_of_length_pos h
  refine ⟨leaves_buildTree hne, fun turns b hleaf => ?_⟩
  have hbounds := depth_bounds hne hleaf
  have hround := clog_le_log_succ names.length
  omega

/-- Of five names, with one of them empty and one twice, the first three lie at depth two and the last two at depth
three. -/
theorem buildTree_balanced_five :
    let names : List Bytes := [[1], [], [2, 2], [1], [5]]
    let t := buildTree (names.map .atom)
    1 ≤ names.length ∧ t.leaves = names ∧ Nat.log 2 names.length = 2 ∧ Nat.clog 2 names.length = 3 ∧
      descend [true, true, true] t = .ok (.atom [5]) ∧ descend [false, true] t = .ok (.atom []) ∧
      ∀ turns b, descend turns t = .ok (.atom b) → turns.length = 2 ∨ turns.length = 3 := by
  intro names t
  have hlog : Nat.log 2 names.length = 2 := by decide +kernel
  have hclog : Nat.clog 2 names.length = 3 := by decide +kernel
  obtain ⟨hleaves, hdepth⟩ := buildTree_balanced (show 1 ≤ names.length by decide)
  refine ⟨by decide, hleaves, hlog, hclog, by decide +kernel, by decide +kernel, fun turns b hleaf => ?_⟩
  rw [← hlog, ← hclog]
  exact hdepth turns b hleaf

end Clvm.Compiler
