import Clvm.Bytes.Integer
import Clvm.Text.Decimal
import Clvm.Text.Hex
import Clvm.Text.Utf8
import Mathlib.Tactic.IntervalCases

/-!
# Texts of numbers and bytes

Numbers in decimal, bytes in hexadecimal and text as bytes are all read back, and a number that was read can be
written.
-/

namespace Clvm.Text

/-! ### Margins -/

theorem dropWhile_eq_self {p : Char → Bool} {cs : List Char} (h : ∀ c, cs.head? = some c → p c = false) :
    cs.dropWhile p = cs := by
  cases cs with
  | nil => rfl
  | cons c cs => exact List.dropWhile_cons_of_neg (by rw [h c rfl]; exact Bool.false_ne_true)

theorem trimBy_eq_self {p : Char → Bool} {cs : List Char} (hfirst : ∀ c, cs.head? = some c → p c = false)
    (hlast : ∀ c, cs.getLast? = some c → p c = false) : trimBy p cs = cs := by
  rw [trimBy, dropWhile_eq_self hfirst, dropWhile_eq_self, List.reverse_reverse]
  rwa [List.head?_reverse]

/-! ### Digits -/

theorem isDigit_iff {c : Char} : c.isDigit = true ↔ 48 ≤ c.toNat ∧ c.toNat ≤ 57 := by
  simp only [Char.isDigit, Bool.and_eq_true, decide_eq_true_eq, UInt32.le_iff_toNat_le]
  exact Iff.rfl

theorem digit?_of_isDigit {c : Char} (h : c.isDigit = true) : digit? c = some (c.toNat - 48) := by
  rw [isDigit_iff] at h
  have hfind : digitZeros.find? (fun z => z ≤ c.toNat && c.toNat < z + 10) = some 48 := by
    rw [digitZeros, List.find?_cons_of_pos]
    simp only [Bool.and_eq_true, decide_eq_true_eq]
    omega
  rw [digit?, hfind]
  rfl

theorem isMargin_of_isDigit {c : Char} (h : c.isDigit = true) : isMargin c = false := by
  rw [isDigit_iff] at h
  simp only [isMargin, isBlank, Bool.and_eq_false_iff, Bool.or_eq_false_iff, decide_eq_false_iff_not, beq_eq_false_iff_ne]
  omega

theorem digits?_of_isDigit {cs : List Char} (hne : cs ≠ []) (h : ∀ c ∈ cs, c.isDigit = true) :
    digits? cs = some (cs.map (·.toNat - 48)) := by
  fun_induction digits? cs with
  | case1 => exact absurd rfl hne
  | case2 c => rw [digit?_of_isDigit (h c List.mem_cons_self)]; rfl
  | case3 c more => exact absurd (h '_' (List.mem_cons_of_mem c List.mem_cons_self)) (by decide)
  | case4 c more hmore _ ih =>
    rw [digit?_of_isDigit (h c List.mem_cons_self), ih (fun h0 => hmore (by rw [h0]))
      fun d hd => h d (List.mem_cons_of_mem c hd)]
    rfl

/-- A character that is no digit and no underscore spoils a number. -/
theorem digits?_eq_none {cs : List Char} {c : Char} (hc : c ∈ cs) (hdigit : digit? c = none) (hunder : c ≠ '_') :
    digits? cs = none := by
  fun_induction digits? cs with
  | case1 => cases hc
  | case2 d =>
    rw [List.mem_singleton] at hc
    rw [← hc, hdigit]
    rfl
  | case3 d more ih =>
    rcases List.mem_cons.mp hc with rfl | hc
    · rw [hdigit]; rfl
    · rw [ih ((List.mem_cons.mp hc).resolve_left hunder)]
      cases digit? d <;> rfl
  | case4 d more _ _ ih =>
    rcases List.mem_cons.mp hc with rfl | hc
    · rw [hdigit]; rfl
    · rw [ih hc]
      cases digit? d <;> rfl

/-! ### Numbers in decimal -/

theorem isDigit_of_mem_natural {n : Nat} {c : Char} (h : c ∈ natural n) : c.isDigit = true :=
  Nat.isDigit_of_mem_toDigits (by decide) (by decide) h

theorem natural_ne_nil (n : Nat) : natural n ≠ [] :=
  List.ne_nil_of_length_pos Nat.length_toDigits_pos

/-- The digits of a number read back, unless they are too many. -/
theorem natural?_natural {n : Nat} (h : (natural n).length ≤ maxDigits) : natural? (natural n) = some n := by
  have hvalue : ofDigits ((natural n).map (·.toNat - 48)) = n := by
    rw [ofDigits, List.foldl_map]
    exact Nat.ofDigitChars_toDigits (by decide) (by decide)
  rw [natural?, digits?_of_isDigit (natural_ne_nil n) fun _ => isDigit_of_mem_natural]
  simp only [bind, Option.bind, List.length_map, if_pos h, hvalue]

theorem integer?_of_head {c : Char} {cs : List Char} (htrim : trimBy isMargin (c :: cs) = c :: cs) (hplus : c ≠ '+')
    (hminus : c ≠ '-') : integer? (c :: cs) = (natural? (c :: cs)).map Int.ofNat := by
  rw [integer?, htrim]
  split
  · rename_i heq
    exact absurd (List.cons.inj heq).1 hplus
  · rename_i heq
    exact absurd (List.cons.inj heq).1 hminus
  · rfl

/-- A text with a character that is no digit and no underscore is no number, if it starts with no sign and has no
margins. -/
theorem integer?_eq_none {c d : Char} {cs : List Char} (hfirst : isMargin c = false) (hplus : c ≠ '+') (hminus : c ≠ '-')
    (hlast : ∀ e, (c :: cs).getLast? = some e → isMargin e = false) (hd : d ∈ c :: cs) (hdigit : digit? d = none)
    (hunder : d ≠ '_') : integer? (c :: cs) = none := by
  have htrim : trimBy isMargin (c :: cs) = c :: cs := trimBy_eq_self (by rintro e ⟨⟩; exact hfirst) hlast
  rw [integer?_of_head htrim hplus hminus, natural?, digits?_eq_none hd hdigit hunder]
  rfl

theorem trimBy_natural (sign : List Char) (hsign : ∀ c ∈ sign, isMargin c = false) (n : Nat) :
    trimBy isMargin (sign ++ natural n) = sign ++ natural n := by
  have hall : ∀ c ∈ sign ++ natural n, isMargin c = false := by
    intro c hc
    rcases List.mem_append.mp hc with hc | hc
    · exact hsign c hc
    · exact isMargin_of_isDigit (isDigit_of_mem_natural hc)
  exact trimBy_eq_self (fun c hc => hall c (List.mem_of_mem_head? hc)) fun c hc => hall c (List.mem_of_getLast? hc)

/-- A number reads back from its text, unless it has too many digits. -/
theorem integer?_integer {i : Int} (h : (natural i.natAbs).length ≤ maxDigits) : integer? (integer i) = some i := by
  cases i with
  | ofNat n =>
    obtain ⟨c, cs, hcs⟩ := List.exists_cons_of_ne_nil (natural_ne_nil n)
    have hc : c.isDigit = true := isDigit_of_mem_natural (n := n) (by rw [hcs]; exact List.mem_cons_self)
    have htrim : trimBy isMargin (natural n) = natural n := trimBy_natural [] nofun n
    have hnat : natural? (natural n) = some n := natural?_natural h
    show integer? (natural n) = _
    rw [hcs] at htrim ⊢
    rw [integer?_of_head htrim (fun h0 => by rw [h0] at hc; cases hc) (fun h0 => by rw [h0] at hc; cases hc), ← hcs, hnat]
    rfl
  | negSucc n =>
    have htrim : trimBy isMargin ('-' :: natural (n + 1)) = '-' :: natural (n + 1) :=
      trimBy_natural ['-'] (fun c hc => by rw [List.mem_singleton.mp hc]; rfl) (n + 1)
    have hnat : natural? (natural (n + 1)) = some (n + 1) := natural?_natural h
    show integer? ('-' :: natural (n + 1)) = _
    rw [integer?, htrim]
    simp only [hnat, Option.map_some]
    rfl

/-! ### Numbers that were read -/

theorem digit?_lt {c : Char} {d : Nat} (h : digit? c = some d) : d < 10 := by
  obtain ⟨first, hfirst, rfl⟩ := Option.map_eq_some_iff.mp h
  have hrange := List.find?_some hfirst
  simp only [Bool.and_eq_true, decide_eq_true_eq] at hrange
  omega

theorem digits?_lt {cs : List Char} {ds : List Nat} (h : digits? cs = some ds) : ds ≠ [] ∧ ∀ d ∈ ds, d < 10 := by
  fun_induction digits? cs generalizing ds with
  | case1 => cases h
  | case2 c =>
    obtain ⟨d, hd, rfl⟩ := Option.map_eq_some_iff.mp h
    exact ⟨List.cons_ne_nil _ _, fun e he => List.mem_singleton.mp he ▸ digit?_lt hd⟩
  | case3 c more ih | case4 c more _ _ ih =>
    obtain ⟨d, hd, h⟩ := Option.bind_eq_some_iff.mp h
    obtain ⟨es, hes, ⟨⟩⟩ := Option.bind_eq_some_iff.mp h
    refine ⟨List.cons_ne_nil _ _, fun e he => ?_⟩
    rcases List.mem_cons.mp he with rfl | he
    · exact digit?_lt hd
    · exact (ih hes).2 e he

theorem foldl_digits_lt {ds : List Nat} (h : ∀ d ∈ ds, d < 10) (acc k : Nat) (hacc : acc < 10 ^ k) :
    ds.foldl (fun acc d => 10 * acc + d) acc < 10 ^ (k + ds.length) := by
  induction ds generalizing acc k with
  | nil => exact hacc
  | cons d ds ih =>
    have hd := h d List.mem_cons_self
    have hnext : 10 * acc + d < 10 ^ (k + 1) := by
      rw [Nat.pow_succ]
      omega
    have := ih (fun e he => h e (List.mem_cons_of_mem d he)) (10 * acc + d) (k + 1) hnext
    rwa [Nat.add_assoc, Nat.add_comm 1] at this

/-- A number that was read has few enough digits to be written. -/
theorem length_natural_of_natural? {cs : List Char} {n : Nat} (h : natural? cs = some n) :
    (natural n).length ≤ maxDigits := by
  obtain ⟨ds, hds, h⟩ := Option.bind_eq_some_iff.mp h
  split at h
  · rename_i hlen
    cases h
    obtain ⟨hne, hlt⟩ := digits?_lt hds
    have hbound : ofDigits ds < 10 ^ ds.length := by
      have := foldl_digits_lt hlt 0 0 (by decide)
      rwa [Nat.zero_add] at this
    exact ((Nat.length_toDigits_le_iff (by decide) (List.length_pos_iff.mpr hne)).mpr hbound).trans hlen
  · cases h

theorem length_natural_of_integer? {cs : List Char} {i : Int} (h : integer? cs = some i) :
    (natural i.natAbs).length ≤ maxDigits := by
  rw [integer?] at h
  split at h
  · obtain ⟨n, hn, rfl⟩ := Option.map_eq_some_iff.mp h
    exact length_natural_of_natural? hn
  · obtain ⟨n, hn, rfl⟩ := Option.map_eq_some_iff.mp h
    rw [Int.natAbs_neg]
    exact length_natural_of_natural? hn
  · obtain ⟨n, hn, rfl⟩ := Option.map_eq_some_iff.mp h
    exact length_natural_of_natural? hn

/-! ### Bytes in hexadecimal -/

theorem hexDigit?_hexDigit {n : Nat} (h : n < 16) : hexDigit? (Bytes.hexDigit n) = some n := by
  interval_cases n <;> rfl

theorem isAsciiBlank_hexDigit {n : Nat} (h : n < 16) : isAsciiBlank (Bytes.hexDigit n) = false := by
  interval_cases n <;> rfl

/-- Bytes read back from their hexadecimal digits. -/
theorem bytesOfHex?_toHex (b : Bytes) : bytesOfHex? (Bytes.toHex b) = some b := by
  induction b with
  | nil => rfl
  | cons x b ih =>
    have hx : x.toNat < 256 := x.toNat_lt
    have hbyte : UInt8.ofNat (16 * (x.toNat / 16) + x.toNat % 16) = x := by
      rw [Nat.div_add_mod]
      exact UInt8.ofNat_toNat
    show bytesOfHex? (Bytes.hexDigit (x.toNat / 16) :: Bytes.hexDigit (x.toNat % 16) :: Bytes.toHex b) = _
    rw [bytesOfHex?, isAsciiBlank_hexDigit (by omega), hexDigit?_hexDigit (by omega), hexDigit?_hexDigit (by omega), ih]
    simp only [Bool.false_eq_true, ↓reduceIte, bind, Option.bind, hbyte]
    rfl

theorem mem_toHex {b : Bytes} {c : Char} (h : c ∈ Bytes.toHex b) : ∃ n, n < 16 ∧ c = Bytes.hexDigit n := by
  obtain ⟨x, -, hc⟩ := List.mem_flatMap.mp h
  have hx : x.toNat < 256 := x.toNat_lt
  simp only [List.mem_cons, List.not_mem_nil, or_false] at hc
  rcases hc with hc | hc
  · exact ⟨_, by omega, hc⟩
  · exact ⟨_, by omega, hc⟩

theorem length_toHex (b : Bytes) : (Bytes.toHex b).length = 2 * b.length := by
  induction b with
  | nil => rfl
  | cons x b ih =>
    show (Bytes.toHex b).length + 1 + 1 = _
    rw [ih, List.length_cons]
    omega

/-! ### Bytes as text -/

theorem toNat_ofNat_ascii {n : Nat} (h : n < 128) : (Char.ofNat n).toNat = n := by
  have hvalid : n.isValidChar := Or.inl (by omega)
  rw [Char.ofNat, dif_pos hvalid]
  rfl

/-- The characters of the ASCII range are their own bytes. -/
theorem encode_map_ofNat {b : Bytes} (h : ∀ x ∈ b, x < 128) :
    Utf8.encode (b.map fun x => Char.ofNat x.toNat) = b := by
  induction b with
  | nil => rfl
  | cons x b ih =>
    have hx : x.toNat < 128 := h x List.mem_cons_self
    have hval : (Char.ofNat x.toNat).val.toNat = x.toNat := toNat_ofNat_ascii hx
    have hchar : String.utf8EncodeChar (Char.ofNat x.toNat) = [x] := by
      simp only [String.utf8EncodeChar, hval]
      rw [if_pos (by omega), UInt8.ofNat_toNat]
    rw [Utf8.encode, List.map_cons, List.flatMap_cons, hchar]
    exact congrArg (x :: ·) (ih fun y hy => h y (List.mem_cons_of_mem x hy))

/-! ### Text as bytes -/

theorem toNat_ofNat_byte {n : Nat} (h : n < 256) : (UInt8.ofNat n).toNat = n := UInt8.toNat_ofNat_of_lt' h

theorem ofNat_lt_iff {n m : Nat} (hn : n < 256) (hm : m < 256) : UInt8.ofNat n < UInt8.ofNat m ↔ n < m := by
  rw [UInt8.lt_iff_toNat_lt, toNat_ofNat_byte hn, toNat_ofNat_byte hm]

theorem continuation?_ofNat {n : Nat} (h : n < 64) : Utf8.continuation? (UInt8.ofNat (n + 128)) = some n := by
  have hx := toNat_ofNat_byte (n := n + 128) (by omega)
  have hrange : 0x80 ≤ UInt8.ofNat (n + 128) ∧ UInt8.ofNat (n + 128) ≤ 0xbf := by
    rw [UInt8.le_iff_toNat_le, UInt8.le_iff_toNat_le, hx]
    exact ⟨Nat.le_add_left _ _, Nat.add_le_add_right (Nat.le_of_lt_succ h) 128⟩
  rw [Utf8.continuation?, if_pos hrange, hx, Nat.add_sub_cancel]

theorem scalar?_toNat {least : Nat} {c : Char} (h : least ≤ c.toNat) : Utf8.scalar? least c.toNat = some c := by
  rw [Utf8.scalar?, if_pos ⟨h, c.valid⟩, Char.ofNat_toNat]

section
variable {c : Char} {x y z t : Nat} (bs : Bytes)

theorem decode?_one (hc : c.toNat < 128) : Utf8.decode? (UInt8.ofNat c.toNat :: bs) = (Utf8.decode? bs).map (c :: ·) := by
  have hlead : UInt8.ofNat c.toNat < 0x80 := (ofNat_lt_iff (m := 128) (by omega) (by decide)).mpr hc
  rw [Utf8.decode?.eq_def]
  simp only [hlead, ↓reduceIte, toNat_ofNat_byte (n := c.toNat) (by omega), Char.ofNat_toNat]
  cases Utf8.decode? bs <;> rfl

/-- The first byte of a character of several bytes is in none of the ranges below its own. -/
theorem not_ofNat_lt {n m : Nat} (hn : n < 256) (h : m ≤ n) : ¬UInt8.ofNat n < UInt8.ofNat m := by
  rw [ofNat_lt_iff hn (by omega)]
  omega

theorem decode?_two (hx : x < 32) (hy : y < 64) (hc : x * 64 + y = c.toNat) (hleast : 0x80 ≤ c.toNat) :
    Utf8.decode? (UInt8.ofNat (x + 192) :: UInt8.ofNat (y + 128) :: bs) = (Utf8.decode? bs).map (c :: ·) := by
  have h1 : ¬UInt8.ofNat (x + 192) < 0x80 := not_ofNat_lt (m := 128) (by omega) (by omega)
  have h2 : ¬UInt8.ofNat (x + 192) < 0xc0 := not_ofNat_lt (m := 192) (by omega) (by omega)
  have h3 : UInt8.ofNat (x + 192) < 0xe0 := (ofNat_lt_iff (m := 224) (by omega) (by decide)).mpr (by omega)
  rw [Utf8.decode?.eq_def]
  simp only [h1, h2, h3, ↓reduceIte, toNat_ofNat_byte (n := x + 192) (by omega), Nat.add_sub_cancel,
    continuation?_ofNat hy, bind, Option.bind, hc, scalar?_toNat hleast]
  cases Utf8.decode? bs <;> rfl

theorem decode?_three (hx : x < 16) (hy : y < 64) (hz : z < 64) (hc : (x * 64 + y) * 64 + z = c.toNat)
    (hleast : 0x800 ≤ c.toNat) :
    Utf8.decode? (UInt8.ofNat (x + 224) :: UInt8.ofNat (y + 128) :: UInt8.ofNat (z + 128) :: bs) =
      (Utf8.decode? bs).map (c :: ·) := by
  have h1 : ¬UInt8.ofNat (x + 224) < 0x80 := not_ofNat_lt (m := 128) (by omega) (by omega)
  have h2 : ¬UInt8.ofNat (x + 224) < 0xc0 := not_ofNat_lt (m := 192) (by omega) (by omega)
  have h3 : ¬UInt8.ofNat (x + 224) < 0xe0 := not_ofNat_lt (m := 224) (by omega) (by omega)
  have h4 : UInt8.ofNat (x + 224) < 0xf0 := (ofNat_lt_iff (m := 240) (by omega) (by decide)).mpr (by omega)
  rw [Utf8.decode?.eq_def]
  simp only [h1, h2, h3, h4, ↓reduceIte, toNat_ofNat_byte (n := x + 224) (by omega), Nat.add_sub_cancel,
    continuation?_ofNat hy, continuation?_ofNat hz, bind, Option.bind, hc, scalar?_toNat hleast]
  cases Utf8.decode? bs <;> rfl

theorem decode?_four (hx : x < 8) (hy : y < 64) (hz : z < 64) (ht : t < 64)
    (hc : ((x * 64 + y) * 64 + z) * 64 + t = c.toNat) (hleast : 0x10000 ≤ c.toNat) :
    Utf8.decode? (UInt8.ofNat (x + 240) :: UInt8.ofNat (y + 128) :: UInt8.ofNat (z + 128) :: UInt8.ofNat (t + 128) :: bs) =
      (Utf8.decode? bs).map (c :: ·) := by
  have h1 : ¬UInt8.ofNat (x + 240) < 0x80 := not_ofNat_lt (m := 128) (by omega) (by omega)
  have h2 : ¬UInt8.ofNat (x + 240) < 0xc0 := not_ofNat_lt (m := 192) (by omega) (by omega)
  have h3 : ¬UInt8.ofNat (x + 240) < 0xe0 := not_ofNat_lt (m := 224) (by omega) (by omega)
  have h4 : ¬UInt8.ofNat (x + 240) < 0xf0 := not_ofNat_lt (m := 240) (by omega) (by omega)
  have h5 : UInt8.ofNat (x + 240) < 0xf8 := (ofNat_lt_iff (m := 248) (by omega) (by decide)).mpr (by omega)
  rw [Utf8.decode?.eq_def]
  simp only [h1, h2, h3, h4, h5, ↓reduceIte, toNat_ofNat_byte (n := x + 240) (by omega), Nat.add_sub_cancel,
    continuation?_ofNat hy, continuation?_ofNat hz, continuation?_ofNat ht, bind, Option.bind, hc, scalar?_toNat hleast]
  cases Utf8.decode? bs <;> rfl

theorem decode?_encodeChar (c : Char) :
    Utf8.decode? (String.utf8EncodeChar c ++ bs) = (Utf8.decode? bs).map (c :: ·) := by
  have hlast : c.toNat < 0x110000 := by
    rcases c.valid with h | h
    · exact Nat.lt_trans h (by decide)
    · exact h.2
  simp only [String.utf8EncodeChar, ← Char.toNat.eq_def]
  split_ifs with h1 h2 h3
  · exact decode?_one bs (by omega)
  · exact decode?_two bs (by omega) (by omega) (by omega) (by omega)
  · exact decode?_three bs (by omega) (by omega) (by omega) (by omega) (by omega)
  · exact decode?_four bs (by omega) (by omega) (by omega) (by omega) (by omega) (by omega)

end

/-- Text reads back from its bytes. -/
theorem decode?_encode (cs : List Char) : Utf8.decode? (Utf8.encode cs) = some cs := by
  induction cs with
  | nil => rfl
  | cons c cs ih =>
    show Utf8.decode? (String.utf8EncodeChar c ++ Utf8.encode cs) = _
    rw [decode?_encodeChar, ih]
    rfl

theorem zero_not_mem_encodeChar {c : Char} (h : c ≠ Char.ofNat 0) : 0 ∉ String.utf8EncodeChar c := by
  have hlarge : ∀ n, 128 ≤ n ∧ n < 256 → (0 : UInt8) ≠ UInt8.ofNat n := by
    intro n hn heq
    have hzero := congrArg UInt8.toNat heq
    rw [toNat_ofNat_byte hn.2, UInt8.toNat_zero] at hzero
    omega
  simp only [String.utf8EncodeChar, ← Char.toNat.eq_def]
  split_ifs with h1 h2 h3 <;> simp only [List.mem_cons, List.not_mem_nil, or_false, not_or]
  · intro heq
    have hzero := congrArg UInt8.toNat heq
    rw [toNat_ofNat_byte (by omega), UInt8.toNat_zero] at hzero
    exact h (by rw [hzero, Char.ofNat_toNat])
  · exact ⟨hlarge _ (by omega), hlarge _ (by omega)⟩
  · exact ⟨hlarge _ (by omega), hlarge _ (by omega), hlarge _ (by omega)⟩
  · exact ⟨hlarge _ (by omega), hlarge _ (by omega), hlarge _ (by omega), hlarge _ (by omega)⟩

theorem zero_not_mem_encode {cs : List Char} (h : Char.ofNat 0 ∉ cs) : 0 ∉ Utf8.encode cs := by
  intro hmem
  obtain ⟨c, hc, hmem⟩ := List.mem_flatMap.mp hmem
  exact zero_not_mem_encodeChar (fun heq => h (heq ▸ hc)) hmem

end Clvm.Text
