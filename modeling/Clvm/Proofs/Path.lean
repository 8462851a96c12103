import Clvm.Path
import Clvm.Proofs.Bytes
import Clvm.Proofs.Machine.Value

/-!
# Walking along paths

An atom as a form gives what stands at a place of the environment. The turns that lead to a composed place are
those of the first path followed by those of the second, so going there is going twice.
-/

namespace Clvm.Machine

/-- What stands at the place of a number; no place has the number zero, which gives nil. -/
def placeAt (n : Nat) (env : SExp) : Except Error SExp :=
  if n = 0 then .ok .nil else descend (branches n) env

theorem lookup_eq_placeAt (b : Bytes) (env : SExp) : (·.2) <$> lookup b env = placeAt (Bytes.toNat b) env := by
  rw [lookup, placeAt]
  split
  · rfl
  · cases descend (branches (Bytes.toNat b)) env <;> rfl

theorem valueOf_path [Curve] (b : Bytes) (env : SExp) : valueOf (.atom b) env = placeAt (Bytes.toNat b) env := by
  rw [valueOf_atom, lookup_eq_placeAt]

/-! ### Turns -/

theorem length_lowBits (count n : Nat) : (lowBits count n).length = count := by
  induction count generalizing n with
  | zero => rfl
  | succ count ih => simp [lowBits, ih]

theorem lowBits_add (a b n : Nat) : lowBits (a + b) n = lowBits a n ++ lowBits b (n / 2 ^ a) := by
  induction a generalizing n with
  | zero => simp [lowBits]
  | succ a ih =>
    rw [Nat.succ_add, lowBits, lowBits, ih, List.cons_append, Nat.div_div_eq_div_mul, pow_succ, Nat.mul_comm 2]

theorem lowBits_mod (a n : Nat) : lowBits a (n % 2 ^ a) = lowBits a n := by
  induction a generalizing n with
  | zero => rfl
  | succ a ih =>
    have hlow : n % 2 ^ (a + 1) % 2 = n % 2 := Nat.mod_mod_of_dvd n ⟨2 ^ a, by rw [pow_succ, Nat.mul_comm]⟩
    have hhigh : n % 2 ^ (a + 1) / 2 = n / 2 % 2 ^ a := by
      rw [pow_succ, Nat.mul_comm, Nat.mod_mul_right_div_self]
    rw [lowBits, lowBits, hlow, hhigh, ih]

section Compose
variable {p q : Nat}

theorem compose_ne_zero (hq : q ≠ 0) : q * 2 ^ p.log2 + p % 2 ^ p.log2 ≠ 0 := by
  have := Nat.mul_pos (Nat.pos_of_ne_zero hq) (Nat.two_pow_pos p.log2)
  omega

theorem compose_div (p q : Nat) : (q * 2 ^ p.log2 + p % 2 ^ p.log2) / 2 ^ p.log2 = q := by
  have hlt : p % 2 ^ p.log2 < 2 ^ p.log2 := Nat.mod_lt _ (Nat.two_pow_pos _)
  rw [Nat.add_comm, Nat.add_mul_div_right _ _ (Nat.two_pow_pos _), Nat.div_eq_of_lt hlt, Nat.zero_add]

theorem compose_mod (p q : Nat) : (q * 2 ^ p.log2 + p % 2 ^ p.log2) % 2 ^ p.log2 = p % 2 ^ p.log2 := by
  rw [Nat.add_comm, Nat.add_mul_mod_self_right, Nat.mod_mod]

/-- A place inside a place is as deep as both together. -/
theorem log2_compose (hq : q ≠ 0) : (q * 2 ^ p.log2 + p % 2 ^ p.log2).log2 = p.log2 + q.log2 := by
  have hlt : p % 2 ^ p.log2 < 2 ^ p.log2 := Nat.mod_lt _ (Nat.two_pow_pos _)
  apply Nat.le_antisymm
  · have hq2 : q + 1 ≤ 2 ^ (q.log2 + 1) := Nat.lt_log2_self
    refine Nat.le_of_lt_succ ((Nat.log2_lt (compose_ne_zero hq)).mpr ?_)
    calc q * 2 ^ p.log2 + p % 2 ^ p.log2 < (q + 1) * 2 ^ p.log2 := by rw [Nat.succ_mul]; omega
      _ ≤ 2 ^ (q.log2 + 1) * 2 ^ p.log2 := Nat.mul_le_mul_right _ hq2
      _ = 2 ^ (p.log2 + q.log2).succ := by rw [← pow_add]; congr 1; omega
  · refine (Nat.le_log2 (compose_ne_zero hq)).mpr ?_
    calc 2 ^ (p.log2 + q.log2) = 2 ^ q.log2 * 2 ^ p.log2 := by rw [← pow_add, Nat.add_comm]
      _ ≤ q * 2 ^ p.log2 := Nat.mul_le_mul_right _ (Nat.log2_self_le hq)
      _ ≤ _ := Nat.le_add_right _ _

/-- The turns of a place inside a place. -/
theorem branches_compose (hq : q ≠ 0) : branches (q * 2 ^ p.log2 + p % 2 ^ p.log2) = branches p ++ branches q := by
  rw [branches, log2_compose hq, lowBits_add, compose_div, ← lowBits_mod, compose_mod, lowBits_mod]
  rfl

end Compose

theorem descend_append (xs ys : List Bool) (t : SExp) :
    descend (xs ++ ys) t = descend xs t >>= descend ys := by
  induction xs generalizing t with
  | nil => rfl
  | cons x xs ih =>
    cases t with
    | atom b => rfl
    | pair first rest => cases x <;> exact ih _

/-- Going to a composed place is going to the first and then on to the second. -/
theorem placeAt_compose {p q : Nat} (hp : p ≠ 0) (hq : q ≠ 0) (env : SExp) :
    placeAt (q * 2 ^ p.log2 + p % 2 ^ p.log2) env = placeAt p env >>= placeAt q := by
  have hplace : placeAt q = descend (branches q) := by
    funext t
    rw [placeAt, if_neg hq]
  rw [placeAt, if_neg (compose_ne_zero hq), branches_compose hq, descend_append, placeAt, if_neg hp, hplace]

end Clvm.Machine

namespace Clvm.Path

theorem compose_index_ne_zero {p q : Path} (hq : q.index ≠ 0) : (p.compose q).index ≠ 0 := Machine.compose_ne_zero hq

/-! ### Signed readings of paths -/

/-- The signed number of some bytes takes as many bytes as they are, or is not negative. -/
def KeepsWidth (b : Bytes) : Prop := 0 ≤ Bytes.toInt b ∨ Bytes.toInt b ≤ -(256 ^ (b.length - 1) : Nat)

instance (b : Bytes) : Decidable (KeepsWidth b) := inferInstanceAs (Decidable (_ ∨ _))

theorem toInt_eq_negSucc {b : Bytes} (h : Bytes.toInt b < 0) :
    ∃ n, Bytes.toInt b = .negSucc n ∧ Bytes.toNat b + (n + 1) = 256 ^ b.length ∧ 2 * (n + 1) ≤ 256 ^ b.length := by
  have hneg := (Bytes.toInt_neg_iff b).mp h
  have hlt := Bytes.toNat_lt b
  have htop := ((Bytes.isNegative_iff b).mp hneg).1
  refine ⟨256 ^ b.length - Bytes.toNat b - 1, ?_, by omega, by omega⟩
  rw [Bytes.toInt_of_isNegative hneg, Int.negSucc_eq]
  have : ((256 : Int) ^ b.length) = ((256 ^ b.length : Nat) : Int) := by push_cast; rfl
  omega

/-- A path whose signed number keeps its width reads as its unsigned number. -/
theorem ofInt_toInt {b : Bytes} (h : KeepsWidth b) : ofInt (Bytes.toInt b) = .ok ⟨Bytes.toNat b⟩ := by
  by_cases hpos : 0 ≤ Bytes.toInt b
  · rw [Bytes.toInt_eq_toNat hpos]
    rfl
  · obtain ⟨n, hn, hsum, htwo⟩ := toInt_eq_negSucc (b := b) (by omega)
    have hlow : 256 ^ (b.length - 1) ≤ n + 1 := by
      rcases h with h | h <;> rw [hn, Int.negSucc_eq] at h <;> omega
    have hwidth : byteLength (n + 1) = b.length := by
      have hb : b.length ≠ 0 := fun h0 => by rw [h0] at htwo; omega
      have hk : b.length - 1 + 1 = b.length := by omega
      rw [← hk]
      refine byteLength_eq hlow ?_
      rw [hk]
      omega
    rw [hn]
    simp only [ofInt, hwidth, Nat.pow_eq]
    rw [if_pos htwo]
    congr 2
    omega

/-- Otherwise the number loses leading bytes: it becomes what its last bytes, of which the first has its top bit set,
are as an unsigned number. -/
theorem ofInt_toInt_narrow {b : Bytes} {p : Path} (h : ¬KeepsWidth b) (hp : ofInt (Bytes.toInt b) = .ok p) :
    ∃ j, j < b.length ∧ p.index = Bytes.toNat b % 256 ^ j ∧ 256 ^ j ≤ 2 * p.index := by
  simp only [KeepsWidth, not_or, not_le] at h
  obtain ⟨n, hn, hsum, -⟩ := toInt_eq_negSucc h.1
  rw [hn] at hp h
  simp only [ofInt, Nat.pow_eq] at hp
  have hlow := lt_pow_byteLength (n + 1)
  have hnarrow : n + 1 < 256 ^ (b.length - 1) := by
    have := h.2
    rw [Int.negSucc_eq] at this
    omega
  have hj : byteLength (n + 1) ≤ b.length - 1 := by
    by_contra hlong
    have hle := pow_le_of_byteLength (show n + 1 ≠ 0 by omega)
    have := Nat.pow_le_pow_right (show 0 < 256 by decide) (show b.length - 1 ≤ byteLength (n + 1) - 1 by omega)
    omega
  split at hp
  · rename_i htwo
    cases hp
    have hb : b.length ≠ 0 := by
      intro h0
      rw [h0] at hnarrow
      simp at hnarrow
    refine ⟨byteLength (n + 1), by omega, ?_, by dsimp only; omega⟩
    obtain ⟨m, hm⟩ := Nat.pow_dvd_pow 256 (show byteLength (n + 1) ≤ b.length by omega)
    have hpos : 0 < m := by
      rcases Nat.eq_zero_or_pos m with h0 | h0
      · rw [h0] at hm
        have := Nat.pow_pos (n := b.length) (show 0 < 256 by decide)
        omega
      · exact h0
    obtain ⟨m, rfl⟩ : ∃ k, m = k + 1 := ⟨m - 1, by omega⟩
    have hrest : Bytes.toNat b = 256 ^ byteLength (n + 1) * m + (256 ^ byteLength (n + 1) - (n + 1)) := by
      rw [Nat.mul_succ] at hm
      omega
    rw [hrest, Nat.mul_add_mod, Nat.mod_eq_of_lt (by omega)]
  · cases hp

end Clvm.Path
