import Clvm.Hash.Sha256

/-!
# Tree hashes

Trees with the same hash are the same, unless two of the byte strings that are hashed on the way collide. A byte in front tells
the strings of leaves and pairs apart, and the fixed length of a digest tells where the hash of a pair's first part ends.
-/

namespace Clvm

/-- Two different strings of a list have the same digest. -/
def Collides (messages : List Bytes) : Prop :=
  ∃ m ∈ messages, ∃ m' ∈ messages, m ≠ m' ∧ sha256 m = sha256 m'

theorem Collides.mono {ms ms' : List Bytes} (h : Collides ms) (hsub : ∀ m ∈ ms, m ∈ ms') : Collides ms' := by
  obtain ⟨m, hm, m', hm', hne, heq⟩ := h
  exact ⟨m, hsub m hm, m', hsub m' hm', hne, heq⟩

@[simp] theorem length_sha256 (message : Bytes) : (sha256 message).length = 32 := by
  simp [sha256, Sha256.Chain.words, Sha256.wordBytes]

namespace SExp

/-- The string of which the hash of a tree is the digest. -/
def message : SExp → Bytes
  | .atom b => 1 :: b
  | .pair x y => 2 :: (treeHash x ++ treeHash y)

/-- All strings that are hashed for the hash of a tree. -/
def messages : SExp → List Bytes
  | .atom b => [message (.atom b)]
  | .pair x y => message (.pair x y) :: (messages x ++ messages y)

theorem treeHash_eq (t : SExp) : t.treeHash = sha256 t.message := by
  cases t <;> rfl

theorem length_treeHash (t : SExp) : t.treeHash.length = 32 := by
  rw [treeHash_eq, length_sha256]

theorem message_mem (t : SExp) : t.message ∈ t.messages := by
  cases t <;> exact List.mem_cons_self

theorem message_pair_inj {x y x' y' : SExp} (h : message (.pair x y) = message (.pair x' y')) :
    x.treeHash = x'.treeHash ∧ y.treeHash = y'.treeHash := by
  have happend : x.treeHash ++ y.treeHash = x'.treeHash ++ y'.treeHash := (List.cons.inj h).2
  exact List.append_inj happend (by rw [length_treeHash, length_treeHash])

/-- Trees with the same hash were hashed from the same string, or from two that collide. -/
theorem message_eq_or_collides {a b : SExp} (h : a.treeHash = b.treeHash) :
    a.message = b.message ∨ Collides (a.messages ++ b.messages) := by
  rw [treeHash_eq, treeHash_eq] at h
  by_cases heq : a.message = b.message
  · exact .inl heq
  · exact .inr ⟨_, List.mem_append_left _ a.message_mem, _, List.mem_append_right _ b.message_mem, heq, h⟩

theorem eq_or_collides {a b : SExp} (h : a.treeHash = b.treeHash) : a = b ∨ Collides (a.messages ++ b.messages) := by
  induction a generalizing b with
  | atom bytes =>
    rcases message_eq_or_collides h with heq | hcollides
    · cases b with
      | atom bytes' => exact .inl (congrArg _ (List.cons.inj heq).2)
      | pair x y =>
        -- the byte in front tells the string of a leaf from that of a pair
        exact absurd (List.cons.inj heq).1 (by decide)
    · exact .inr hcollides
  | pair x y ihx ihy =>
    rcases message_eq_or_collides h with heq | hcollides
    · cases b with
      | atom bytes => exact absurd (List.cons.inj heq).1 (by decide)
      | pair x' y' =>
        obtain ⟨hx, hy⟩ := message_pair_inj heq
        rcases ihx hx with rfl | hx
        · rcases ihy hy with rfl | hy
          · exact .inl rfl
          · exact .inr (hy.mono (by simp +contextual [messages, or_imp]))
        · exact .inr (hx.mono (by simp +contextual [messages, or_imp]))
    · exact .inr hcollides

/-- Trees with the same hash are the same, or two of the strings that were hashed for them collide. Such strings there are
whenever an atom and a pair have the same hash. -/
theorem treeHash_collision_free {a b : SExp} (h : a.treeHash = b.treeHash) :
    (a = b ∨ Collides (a.messages ++ b.messages)) ∧ (a.isPair ≠ b.isPair → Collides (a.messages ++ b.messages)) := by
  refine ⟨eq_or_collides h, fun hne => (eq_or_collides h).resolve_left ?_⟩
  rintro rfl
  exact hne rfl

/-- A list and the pairs that it consists of; and an atom whose bytes are the hashes of a pair's parts, one after the other. -/
theorem treeHash_collision_free_imitation :
    let list := ofList [.atom [7], .atom [8]]
    let pair := SExp.pair (.atom [7]) (.pair (.atom [8]) .nil)
    let imitation := SExp.atom ((SExp.atom [7]).treeHash ++ (SExp.pair (.atom [8]) .nil).treeHash)
    list.treeHash = pair.treeHash ∧ (list = pair ∨ Collides (list.messages ++ pair.messages)) ∧
      (imitation.treeHash = pair.treeHash → Collides (imitation.messages ++ pair.messages)) := by
  intro list pair imitation
  have hlist : list.treeHash = pair.treeHash := rfl
  exact ⟨hlist, (treeHash_collision_free hlist).1, fun h => (treeHash_collision_free h).2 Bool.false_ne_true⟩

end SExp
end Clvm
