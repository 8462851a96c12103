import Clvm.Proofs.Path

/-!
# The numbers of places

Places are composed by arithmetic on their numbers. Going to a composed place is going to one place and from there to
the other, so composition is associative and the root is its unit. A place whose number is kept as bytes and read
again with a sign is the same place, unless the first of its bytes is 255 and a later one is not zero.
-/

namespace Clvm.Machine

/-- What stands at the place that an atom names, whatever it costs to go there. -/
def locate (path : Bytes) (env : SExp) : Except Error SExp := (·.2) <$> lookup path env

theorem locate_eq_placeAt (path : Bytes) (env : SExp) : locate path env = placeAt (Bytes.toNat path) env :=
  lookup_eq_placeAt path env

end Clvm.Machine

namespace Clvm.Path
open Machine

theorem length_toBytes (p : Path) : p.toBytes.length = byteLength p.index := Bytes.length_ofNatWidth _ _

theorem toNat_toBytes (p : Path) : Bytes.toNat p.toBytes = p.index := Bytes.toNat_ofNat _

/-! ### Composition -/

theorem composeNumbers_natCast (a : Nat) (b : Int) :
    composeNumbers a b = b * 2 ^ a.log2 + ((a % 2 ^ a.log2 : Nat) : Int) := by
  show b * ((2 ^ a.log2 : Nat) : Int) + ((a % 2 ^ a.log2 : Nat) : Int) = _
  push_cast
  rfl

/-- Below the depth of both places together stand the bits of the one and then those of the other. -/
theorem compose_mod_add (p q k : Nat) :
    (q * 2 ^ p.log2 + p % 2 ^ p.log2) % 2 ^ (p.log2 + k) = q % 2 ^ k * 2 ^ p.log2 + p % 2 ^ p.log2 := by
  rw [pow_add, Nat.mod_mul, compose_mod, compose_div]
  ring

theorem composeNumbers_assoc {p q : Nat} (hq : q ≠ 0) (r : Int) :
    composeNumbers (composeNumbers p q) r = composeNumbers p (composeNumbers q r) := by
  have hcompose : composeNumbers p q = ((q * 2 ^ p.log2 + p % 2 ^ p.log2 : Nat) : Int) := by
    rw [composeNumbers_natCast]
    push_cast
    rfl
  rw [hcompose, composeNumbers_natCast, log2_compose hq, compose_mod_add, composeNumbers_natCast q,
    composeNumbers_natCast p]
  push_cast
  ring

theorem composeNumbers_one_left (p : Int) : composeNumbers 1 p = p := by
  show p * 1 + 0 = p
  omega

theorem composeNumbers_one_right {p : Nat} (hp : p ≠ 0) : composeNumbers p 1 = p := by
  have hlow : 2 ^ p.log2 ≤ p := Nat.log2_self_le hp
  have hhigh : p < 2 ^ (p.log2 + 1) := Nat.lt_log2_self
  have hmod : p % 2 ^ p.log2 = p - 2 ^ p.log2 := by
    rw [Nat.mod_eq_sub_mod hlow, Nat.mod_eq_of_lt (by rw [pow_succ] at hhigh; omega)]
  rw [composeNumbers_natCast, hmod, one_mul]
  push_cast [hlow]
  ring

/-- The second number is shifted over the bits of the first, whose highest bit is dropped. -/
theorem composeNumbers_eq_or (p q : Nat) :
    composeNumbers p q = ((q <<< p.log2 ||| p &&& (2 ^ p.log2 - 1) : Nat) : Int) := by
  have hlt : p % 2 ^ p.log2 < 2 ^ p.log2 := Nat.mod_lt _ (Nat.two_pow_pos _)
  rw [Nat.and_two_pow_sub_one_eq_mod, ← Nat.shiftLeft_add_eq_or_of_lt hlt, Nat.shiftLeft_eq, composeNumbers_natCast]
  push_cast
  rfl

theorem locate_compose {p q : Path} (hp : p.index ≠ 0) (hq : q.index ≠ 0) {b b' : Bytes} (hb : Bytes.toNat b = p.index)
    (hb' : Bytes.toNat b' = q.index) (env : SExp) :
    locate (p.compose q).toBytes env = locate b env >>= locate b' := by
  rw [locate_eq_placeAt, locate_eq_placeAt, funext (locate_eq_placeAt b'), toNat_toBytes, hb, hb']
  exact placeAt_compose hp hq env

/-- The numbers from one on are places. Two of them are composed by shifting the second over the bits of the first, and
that is the place to which going to the first and from there to the second leads, by whatever atoms these are named. It
is a place again, and composing places is associative, with the root as its unit on both sides. -/
theorem compose_is_walking_on {p q : Int} (hp : 1 ≤ p) (hq : 1 ≤ q) :
    (∃ P Q R : Path, ofInt p = .ok P ∧ ofInt q = .ok Q ∧ ofInt (composeNumbers p q) = .ok R ∧ P.compose Q = R ∧
      ∀ b b' : Bytes, (Bytes.toNat b : Int) = p → (Bytes.toNat b' : Int) = q →
        ∀ env, locate R.toBytes env = locate b env >>= locate b') ∧
    composeNumbers p q = ((q.toNat <<< p.toNat.log2 ||| p.toNat &&& (2 ^ p.toNat.log2 - 1) : Nat) : Int) ∧
    1 ≤ composeNumbers p q ∧
    (∀ r, composeNumbers (composeNumbers p q) r = composeNumbers p (composeNumbers q r)) ∧
    composeNumbers 1 p = p ∧ composeNumbers p 1 = p := by
  obtain ⟨n, rfl⟩ := Int.eq_ofNat_of_zero_le (by omega : 0 ≤ p)
  obtain ⟨m, rfl⟩ := Int.eq_ofNat_of_zero_le (by omega : 0 ≤ q)
  have hn : n ≠ 0 := by omega
  have hm : m ≠ 0 := by omega
  have hsum : composeNumbers n m = ((compose ⟨n⟩ ⟨m⟩).index : Int) := (compose_eq_composeNumbers ⟨n⟩ ⟨m⟩).symm
  refine ⟨⟨⟨n⟩, ⟨m⟩, compose ⟨n⟩ ⟨m⟩, rfl, rfl, by rw [hsum]; rfl, rfl, fun b b' hb hb' env => ?_⟩,
    composeNumbers_eq_or n m, ?_, composeNumbers_assoc hm, composeNumbers_one_left n, composeNumbers_one_right hn⟩
  · exact locate_compose hn hm (Int.ofNat.inj hb) (Int.ofNat.inj hb') env
  · have := compose_index_ne_zero (p := ⟨n⟩) (q := ⟨m⟩) hm
    omega

/-- Composing 198 and 383 gives 49094, two bytes of which the first has its top bit set. -/
theorem compose_is_walking_on_across_bytes :
    (1 : Int) ≤ 198 ∧ (1 : Int) ≤ 383 ∧ composeNumbers 198 383 = 49094 ∧
      ∀ env, locate [0xbf, 0xc6] env = locate [0xc6] env >>= locate [0x01, 0x7f] := by
  obtain ⟨P, Q, R, -, -, hR, -, hwalk⟩ := (compose_is_walking_on (p := 198) (q := 383) (by decide) (by decide)).1
  have hindex : R = ⟨49094⟩ := (Except.ok.inj hR).symm
  refine ⟨by decide, by decide, rfl, fun env => ?_⟩
  rw [hindex] at hwalk
  exact hwalk [0xc6] [0x01, 0x7f] rfl rfl env

/-! ### Numbers that are read again -/

/-- The place of the signed number of a place's bytes. -/
def reread (p : Path) : Except Error Path := ofInt (Bytes.toInt p.toBytes)

/-- The signed number of a place's bytes keeps their width just when the place is not above 255 followed by zeros. -/
theorem keepsWidth_toBytes_iff (p : Path) : KeepsWidth p.toBytes ↔ p.index ≤ 255 * 256 ^ (byteLength p.index - 1) := by
  have hlt := lt_pow_byteLength p.index
  have hneg := Bytes.isNegative_iff p.toBytes
  rw [length_toBytes, toNat_toBytes] at hneg
  cases hwidth : byteLength p.index with
  | zero =>
    rw [hwidth] at hlt
    have hbytes : p.toBytes = [] := List.eq_nil_of_length_eq_zero ((length_toBytes p).trans hwidth)
    exact iff_of_true (.inl (by rw [hbytes]; decide)) (by omega)
  | succ k =>
    rw [hwidth, pow_succ'] at hneg hlt
    cases hsign : Bytes.isNegative p.toBytes with
    | false =>
      have hne : p.toBytes ≠ [] := fun hnil => by
        have := length_toBytes p
        rw [hnil, hwidth] at this
        cases this
      rw [hsign] at hneg
      have hsmall : ¬256 * 256 ^ k ≤ 2 * p.index := fun hle => Bool.false_ne_true (hneg.mpr ⟨hle, hne⟩)
      refine iff_of_true (.inl ?_) (by rw [Nat.add_sub_cancel]; omega)
      rw [Bytes.toInt_of_not_isNegative hsign]
      exact Int.natCast_nonneg _
    | true =>
      have hint : Bytes.toInt p.toBytes = (p.index : Int) - ((256 * 256 ^ k : Nat) : Int) := by
        rw [Bytes.toInt_of_isNegative hsign, toNat_toBytes, length_toBytes, hwidth, pow_succ']
        push_cast
        rfl
      rw [KeepsWidth, hint, length_toBytes, hwidth, Nat.add_sub_cancel]
      omega

theorem reread_of_lt {p : Path} (h : 255 * 256 ^ (byteLength p.index - 1) < p.index) :
    ∃ m, p.index + m = 256 ^ byteLength p.index ∧
      reread p = if 2 * m ≤ 256 ^ byteLength m then .ok ⟨256 ^ byteLength m - m⟩ else .error .pathOutOfRange := by
  have hwidth : ¬KeepsWidth p.toBytes := fun hkeeps => by
    have := (keepsWidth_toBytes_iff p).mp hkeeps
    omega
  obtain ⟨n, hn, hsum, -⟩ := toInt_eq_negSucc (not_le.mp (not_or.mp hwidth).1)
  rw [toNat_toBytes, length_toBytes] at hsum
  refine ⟨n + 1, hsum, ?_⟩
  rw [reread, hn, ofInt]
  rfl

theorem reread_eq_self_iff (p : Path) : reread p = .ok p ↔ p.index ≤ 255 * 256 ^ (byteLength p.index - 1) := by
  rw [← keepsWidth_toBytes_iff]
  constructor
  · intro h
    by_contra hwidth
    obtain ⟨j, hj, hindex, -⟩ := ofInt_toInt_narrow hwidth h
    rw [toNat_toBytes] at hindex
    rw [length_toBytes] at hj
    have hlt : p.index < 256 ^ j := by
      rw [hindex]
      exact Nat.mod_lt _ (Nat.pow_pos (by decide))
    have hne : p.index ≠ 0 := fun h0 => by
      rw [h0] at hj
      exact Nat.not_lt_zero j hj
    have hle := pow_le_of_byteLength hne
    have := Nat.pow_le_pow_right (show 0 < 256 by decide) (show j ≤ byteLength p.index - 1 by omega)
    omega
  · intro h
    rw [reread, ofInt_toInt h, toNat_toBytes]

/-- A place is read again from its bytes just when it is not above 255 followed by zeros, in as many bytes as it has.
Otherwise its signed number is close to zero, at a distance `m` of fewer bytes: the place becomes another one of so many
bytes, or none if `m` is too large for a negative number of them. -/
theorem reread_spec (n : Nat) :
    ((ofInt n >>= reread) = .ok ⟨n⟩ ↔ n ≤ 255 * 256 ^ (byteLength n - 1)) ∧
    (255 * 256 ^ (byteLength n - 1) < n → ∃ m, n + m = 256 ^ byteLength n ∧
      (ofInt n >>= reread) =
        if 2 * m ≤ 256 ^ byteLength m then .ok ⟨256 ^ byteLength m - m⟩ else .error .pathOutOfRange) :=
  ⟨reread_eq_self_iff ⟨n⟩, fun h => reread_of_lt (p := ⟨n⟩) h⟩

/-- The place 65535 is read again as 255, and the place 65407 as none. -/
theorem reread_changes_place :
    (ofInt 65535 >>= reread) = .ok ⟨255⟩ ∧ (ofInt 65407 >>= reread) = .error .pathOutOfRange ∧
      ¬∀ n : Nat, (ofInt n >>= reread) = .ok ⟨n⟩ := by
  have hwide : (ofInt 65535 >>= reread) = .ok ⟨255⟩ := rfl
  refine ⟨hwide, rfl, fun h => ?_⟩
  cases hwide.symm.trans (h 65535)

end Clvm.Path
