import Mathlib.Tactic.Linarith
import Mathlib.Tactic.Ring
import Clvm.Bytes.Integer

/-!
# Numbers and their bytes

The unsigned value of bytes is positional in base 256, so the bytes of a natural number read back as the
number. The signed value is the unsigned one, or below zero by as much as the width allows, so that the bytes of a
number with a sign read back too.
-/

namespace Clvm

theorem lt_two_pow_bitLength (n : Nat) : n < 2 ^ bitLength n := by
  unfold bitLength
  split
  · subst_vars; decide
  · exact Nat.lt_log2_self

theorem two_pow_le_of_bitLength {n k : Nat} (h : k < bitLength n) : 2 ^ k ≤ n := by
  unfold bitLength at h
  split at h
  · omega
  · rename_i hn
    exact (Nat.le_log2 hn).mp (by omega)

theorem pow_256 (k : Nat) : 256 ^ k = 2 ^ (8 * k) := by
  rw [pow_mul]
  rfl

theorem lt_pow_byteLength (n : Nat) : n < 256 ^ byteLength n := by
  rw [pow_256]
  refine lt_of_lt_of_le (lt_two_pow_bitLength n) (Nat.pow_le_pow_right (by omega) ?_)
  unfold byteLength
  omega

theorem pow_le_of_byteLength {n : Nat} (h : n ≠ 0) : 256 ^ (byteLength n - 1) ≤ n := by
  have hpos : 0 < bitLength n := by
    unfold bitLength
    rw [if_neg h]
    omega
  rw [pow_256]
  refine two_pow_le_of_bitLength ?_
  unfold byteLength
  omega

/-- A number has as many bytes as its size needs. -/
theorem byteLength_eq {n k : Nat} (hlow : 256 ^ k ≤ n) (hhigh : n < 256 ^ (k + 1)) : byteLength n = k + 1 := by
  have hne : n ≠ 0 := by
    have := Nat.pow_pos (n := k) (show 0 < 256 by decide)
    omega
  have hlt : k < byteLength n :=
    (Nat.pow_lt_pow_iff_right (by decide : 1 < 256)).mp (lt_of_le_of_lt hlow (lt_pow_byteLength n))
  have hle : byteLength n - 1 < k + 1 :=
    (Nat.pow_lt_pow_iff_right (by decide : 1 < 256)).mp (lt_of_le_of_lt (pow_le_of_byteLength hne) hhigh)
  omega

namespace Bytes

/-! ### Unsigned values -/

theorem foldl_toNat (b : Bytes) (acc : Nat) :
    b.foldl (fun acc x => acc * 256 + x.toNat) acc = acc * 256 ^ b.length + toNat b := by
  induction b generalizing acc with
  | nil => simp [toNat]
  | cons x b ih =>
    have hzero : toNat (x :: b) = (0 * 256 + x.toNat) * 256 ^ b.length + toNat b := ih _
    rw [List.foldl_cons, ih, hzero, List.length_cons]
    ring

@[simp] theorem toNat_nil : toNat [] = 0 := rfl

theorem toNat_cons (x : UInt8) (b : Bytes) : toNat (x :: b) = x.toNat * 256 ^ b.length + toNat b := by
  rw [toNat, List.foldl_cons, foldl_toNat]
  ring

theorem toNat_lt (b : Bytes) : toNat b < 256 ^ b.length := by
  induction b with
  | nil => simp
  | cons x b ih =>
    rw [toNat_cons, List.length_cons, pow_succ]
    have hx : x.toNat < 256 := x.toNat_lt
    nlinarith

theorem length_digits (n width : Nat) (tail : Bytes) : (digits n width tail).length = width + tail.length := by
  induction width generalizing n tail with
  | zero => simp [digits]
  | succ width ih =>
    rw [digits, ih, List.length_cons]
    omega

theorem toNat_digits (n width : Nat) (tail : Bytes) :
    toNat (digits n width tail) = n % 256 ^ width * 256 ^ tail.length + toNat tail := by
  induction width generalizing n tail with
  | zero => simp [digits, Nat.mod_one]
  | succ width ih =>
    have hdigit : (UInt8.ofNat (n % 256)).toNat = n % 256 := by
      simp only [UInt8.toNat_ofNat']
      omega
    rw [digits, ih, toNat_cons, hdigit, List.length_cons, pow_succ 256 width, Nat.mul_comm (256 ^ width),
      Nat.mod_mul]
    ring

theorem toNat_ofNatWidth (width n : Nat) : toNat (ofNatWidth width n) = n % 256 ^ width := by
  simp [ofNatWidth, toNat_digits]

@[simp] theorem length_ofNatWidth (width n : Nat) : (ofNatWidth width n).length = width := by
  simp [ofNatWidth, length_digits]

/-- The shortest unsigned form reads back. -/
@[simp] theorem toNat_ofNat (n : Nat) : toNat (ofNat n) = n := by
  rw [ofNat, toNat_ofNatWidth, Nat.mod_eq_of_lt (lt_pow_byteLength n)]

/-! ### Signed values -/

theorem isNegative_iff (b : Bytes) : isNegative b = true ↔ 256 ^ b.length ≤ 2 * toNat b ∧ b ≠ [] := by
  cases b with
  | nil => simp [isNegative]
  | cons x b =>
    have hlt := toNat_lt b
    have hx : x.toNat < 256 := x.toNat_lt
    simp only [isNegative, decide_eq_true_eq, UInt8.le_iff_toNat_le, toNat_cons, List.length_cons, pow_succ, ne_eq,
      reduceCtorEq, not_false_eq_true, and_true]
    change 128 ≤ x.toNat ↔ _
    constructor
    · intro h
      nlinarith
    · intro h
      by_contra hneg
      have : x.toNat ≤ 127 := by omega
      nlinarith

theorem toInt_of_isNegative {b : Bytes} (h : isNegative b = true) : toInt b = (toNat b : Int) - 256 ^ b.length := by
  simp [toInt, h]

theorem toInt_of_not_isNegative {b : Bytes} (h : isNegative b = false) : toInt b = (toNat b : Int) := by
  simp [toInt, h]

theorem natAbs_toInt_le (b : Bytes) : (toInt b).natAbs ≤ 256 ^ b.length := by
  have hlt := toNat_lt b
  rw [toInt]
  split
  · show (((toNat b : Nat) : Int) - ((256 ^ b.length : Nat) : Int)).natAbs ≤ _
    omega
  · rw [Int.natAbs_natCast]
    exact hlt.le

theorem toInt_neg_iff (b : Bytes) : toInt b < 0 ↔ isNegative b = true := by
  cases h : isNegative b with
  | true =>
    have hlt : (toNat b : Int) < 256 ^ b.length := by exact_mod_cast toNat_lt b
    simp only [toInt_of_isNegative h, iff_true]
    omega
  | false =>
    simp only [toInt_of_not_isNegative h, Bool.false_eq_true, iff_false]
    omega

/-- A number that is not negative reads the same with and without a sign. -/
theorem toInt_eq_toNat {b : Bytes} (h : 0 ≤ toInt b) : toInt b = (toNat b : Int) := by
  refine toInt_of_not_isNegative ?_
  cases hneg : isNegative b with
  | true => exact absurd ((toInt_neg_iff b).mpr hneg) (by omega)
  | false => rfl

theorem toNat_ofIntWidth (width : Nat) (i : Int) : (toNat (ofIntWidth width i) : Int) = i % 256 ^ width := by
  have hpos : (0 : Int) < 256 ^ width := by positivity
  have hlt := Int.emod_lt_of_pos i hpos
  have hnonneg := Int.emod_nonneg i hpos.ne'
  have hcast : ((Nat.pow 256 width : Nat) : Int) = 256 ^ width := by norm_cast
  rw [ofIntWidth, toNat_ofNatWidth, hcast, Nat.mod_eq_of_lt, Int.toNat_of_nonneg hnonneg]
  exact (Int.toNat_lt hnonneg).mpr (by exact_mod_cast hlt)

/-- A number reads back from as many bytes as it needs with its sign. -/
theorem toInt_ofIntWidth {width : Nat} {i : Int} (hlow : -256 ^ width ≤ 2 * i) (hhigh : 2 * i < 256 ^ width) :
    toInt (ofIntWidth width i) = i := by
  have hnat := toNat_ofIntWidth width i
  have hlength : (ofIntWidth width i).length = width := length_ofNatWidth _ _
  have hcast : ((256 ^ width : Nat) : Int) = 256 ^ width := by norm_cast
  by_cases hi : 0 ≤ i
  · rw [Int.emod_eq_of_lt hi (by omega)] at hnat
    rw [toInt_of_not_isNegative, hnat]
    rw [← Bool.not_eq_true, isNegative_iff, hlength]
    omega
  · have hmod : i % 256 ^ width = i + 256 ^ width := by
      rw [← Int.add_emod_right, Int.emod_eq_of_lt (by omega) (by omega)]
    rw [hmod] at hnat
    rw [toInt_of_isNegative, hnat, hlength, Int.add_sub_cancel]
    rw [isNegative_iff, hlength]
    refine ⟨by omega, fun hnil => ?_⟩
    rw [hnil] at hlength
    rw [← hlength] at hlow
    simp only [List.length_nil, pow_zero] at hlow
    omega

theorem two_mul_two_pow_bitLength (n : Nat) : 2 * 2 ^ bitLength n ≤ 256 ^ (bitLength n / 8 + 1) := by
  rw [pow_256, ← pow_succ']
  exact Nat.pow_le_pow_right (by decide) (by omega)

/-- A number reads back from its shortest form. -/
@[simp] theorem toInt_ofInt (i : Int) : toInt (ofInt i) = i := by
  have hbound : ∀ n : Nat, 2 * (n : Int) < 256 ^ (bitLength n / 8 + 1) := fun n => by
    have := lt_two_pow_bitLength n
    have := two_mul_two_pow_bitLength n
    have : 2 * n < 256 ^ (bitLength n / 8 + 1) := by omega
    exact_mod_cast this
  cases i with
  | ofNat n =>
    cases n with
    | zero => rfl
    | succ n =>
      have hn : 2 * Int.ofNat (n + 1) < 256 ^ intWidth (Int.ofNat (n + 1)) := hbound (n + 1)
      have hpos : (0 : Int) ≤ Int.ofNat (n + 1) := Int.natCast_nonneg (n + 1)
      exact toInt_ofIntWidth (by omega) hn
  | negSucc n =>
    have hn : 2 * (n : Int) < 256 ^ intWidth (Int.negSucc n) := hbound n
    -- The width is never zero, so the power is even.
    have heven : (256 : Int) ^ intWidth (Int.negSucc n) = 256 * 256 ^ (bitLength n / 8) := pow_succ' _ _
    exact toInt_ofIntWidth (by omega) (by omega)

end Bytes
end Clvm
