import Clvm.Assembler
import Clvm.Proofs.Bytes
import Clvm.Proofs.Node.Token
import Clvm.Proofs.Text

/-!
# Leaves of source text

Every way to write an atom gives one word, which is read back to a node of the atom: a keyword, a number, bytes in
hexadecimal or quoted text. What is known of such a node is left open, so that the same words serve for trees, which
nodes are assembled to, and for the nodes themselves.
-/

namespace Clvm.Node
open Token

/-- A word that stands for a node: it is one token, no mark, and what is read from it is as told. -/
structure IsLeaf (w : List Char) (P : SExp → Prop) : Prop where
  word : IsWord w
  mark : ∀ c, w.head? = some c → isMark c = false
  reads : ∀ offset, ∃ n, readLeaf ⟨w, offset⟩ = .ok n ∧ P n

/-- A node that is assembled to a tree. -/
def Assembles (t n : SExp) : Prop := assemble n = .ok t

/-! ### Assembling -/

theorem isKind_located (k k' : Kind) (offset : Int) (v : SExp) :
    isKind k (located k' offset v) = .ok (k'.number == k.number) := rfl

theorem symbolName?_located {k : Kind} (h : (k.number == Kind.symbol.number) = false) (offset : Int) (v : SExp) :
    symbolName? (located k offset v) = .ok none := by
  show (isKind .symbol (located k offset v) >>= _) = _
  rw [isKind_located, h]
  rfl

/-- A node that is neither a symbol nor a list is assembled to its value. -/
theorem assemble_located {k : Kind} (hsymbol : (k.number == Kind.symbol.number) = false)
    (hcons : (k.number == Kind.cons.number) = false) (offset : Int) (v : SExp) : assemble (located k offset v) = .ok v := by
  have hname := symbolName?_located hsymbol offset v
  have hkind := isKind_located .cons k offset v
  rw [located] at hname hkind ⊢
  unfold assemble
  rw [hname, hkind, hcons]
  rfl

theorem assemble_cons {x y t u : SExp} (hx : assemble x = .ok t) (hy : assemble y = .ok u) (offset : Int) :
    assemble (cons x y (some offset)) = .ok (.pair t u) := by
  have hname := symbolName?_located (k := .cons) (by decide) offset (.pair x y)
  have hkind := isKind_located .cons .cons offset (.pair x y)
  rw [cons, new]
  rw [located] at hname hkind ⊢
  rw [assemble, hname, hkind, hx, hy]
  rfl

theorem symbolName?_readSymbol {cs : List Char} (htext : Text.Utf8.decode? (Text.Utf8.encode cs) = some cs)
    (offset : Int) : symbolName? (readSymbol cs offset) = .ok (some cs) := by
  have hkind := isKind_located .symbol .symbol offset (.atom (Text.Utf8.encode cs))
  rw [readSymbol, located, symbolName?]
  rw [located] at hkind
  simp only [hkind, bind, Except.bind, beq_self_eq_true, ↓reduceIte, SExp.bytes, htext]
  rfl

theorem assemble_symbol {c : Char} {cs : List Char} {b : Bytes}
    (htext : Text.Utf8.decode? (Text.Utf8.encode (c :: cs)) = some (c :: cs)) (hsharp : c ≠ '#')
    (hkey : Keyword.toBytes? (c :: cs) = some b) (offset : Int) :
    assemble (readSymbol (c :: cs) offset) = .ok (.atom b) := by
  have hname := symbolName?_readSymbol htext offset
  rw [readSymbol, located] at hname ⊢
  rw [assemble, hname]
  simp only [bind, Except.bind, if_neg hsharp, hkey]
  rfl

/-- A symbol that is no keyword is assembled to the bytes of its text. -/
theorem assemble_name {c : Char} {cs : List Char}
    (htext : Text.Utf8.decode? (Text.Utf8.encode (c :: cs)) = some (c :: cs)) (hsharp : c ≠ '#')
    (hkey : Keyword.toBytes? (c :: cs) = none) (offset : Int) :
    assemble (readSymbol (c :: cs) offset) = .ok (.atom (Text.Utf8.encode (c :: cs))) := by
  have hname := symbolName?_readSymbol htext offset
  rw [readSymbol, located] at hname ⊢
  rw [assemble, hname]
  simp only [bind, Except.bind, if_neg hsharp, hkey]
  rfl

/-! ### Keywords -/

/-- A text that is read as a symbol and assembled to the atom of a keyword. -/
def isKeywordFor (b : Bytes) : List Char → Bool
  | [] => false
  | c :: cs => startsPlain c && cs.all isPlain && c != '0' && c != '#' && (Text.integer? (c :: cs)).isNone &&
      Text.Utf8.decode? (Text.Utf8.encode (c :: cs)) == some (c :: cs) && Keyword.toBytes? (c :: cs) == some b

theorem isKeywordFor_table : (List.range Keyword.table.length).all (fun n =>
    match Keyword.table[n]? with
    | some w => w.toList == ['.'] || isKeywordFor (Keyword.atomAt n) w.toList
    | none => false) = true := by
  decide +kernel

theorem isKeywordFor_of_getElem? {n : Nat} {w : String} (h : Keyword.table[n]? = some w) (hdot : w.toList ≠ ['.']) :
    isKeywordFor (Keyword.atomAt n) w.toList = true := by
  have hlt : n < Keyword.table.length := (List.getElem?_eq_some_iff.mp h).1
  have hall := List.all_eq_true.mp isKeywordFor_table n (List.mem_range.mpr hlt)
  rw [h] at hall
  simpa [hdot] using hall

theorem isKeywordFor_of_keywordNames {b : Bytes} {name : List Char} (h : SExp.keywordNames b = some name)
    (hdot : name ≠ ['.']) : isKeywordFor b name = true := by
  obtain ⟨w, hw, rfl⟩ := Option.map_eq_some_iff.mp h
  match b, hw with
  | [], hw => exact isKeywordFor_of_getElem? (n := 0) hw hdot
  | [x], hw =>
    rw [Keyword.ofBytes?] at hw
    split at hw
    · cases hw
    · rename_i hx
      have hne : x.toNat ≠ 0 := fun h0 => hx (UInt8.toNat_inj.mp h0)
      have hkey := isKeywordFor_of_getElem? hw hdot
      rwa [Keyword.atomAt, if_neg hne, UInt8.ofNat_toNat] at hkey

theorem readQuoted?_eq_none {c : Char} (h : isQuote c = false) (cs : List Char) (offset : Int) :
    readQuoted? (c :: cs) offset = .ok none := by
  cases cs with
  | nil => rfl
  | cons d ds => rw [readQuoted?, h]; rfl

theorem readLeaf_symbol {c : Char} {cs : List Char} (hint : Text.integer? (c :: cs) = none) (hzero : c ≠ '0')
    (hquote : isQuote c = false) (offset : Nat) : readLeaf ⟨c :: cs, offset⟩ = .ok (readSymbol (c :: cs) offset) := by
  have hhex : readHex? (c :: cs) offset = .ok none := by
    rw [readHex?]
    exact fun x digits heq => hzero (List.cons.inj heq).1
  have hquoted := readQuoted?_eq_none hquote cs offset
  simp only [readLeaf, readInt?, hint, hhex, hquoted]
  rfl

theorem isLeaf_keyword {b : Bytes} {name : List Char} (h : isKeywordFor b name = true) : IsLeaf name (Assembles (.atom b)) := by
  cases name with
  | nil => cases h
  | cons c cs =>
    simp only [isKeywordFor, Bool.and_eq_true, bne_iff_ne, ne_eq, Option.isNone_iff_eq_none, beq_iff_eq,
      List.all_eq_true] at h
    obtain ⟨⟨⟨⟨⟨⟨hstart, hplain⟩, hzero⟩, hsharp⟩, hint⟩, htext⟩, hkey⟩ := h
    have hclass := hstart
    simp only [startsPlain, Bool.and_eq_true, Bool.not_eq_true'] at hclass
    refine ⟨isWord_plain hstart hplain, ?_, fun offset => ?_⟩
    · rintro _ ⟨⟩
      exact hclass.1.2
    · exact ⟨_, readLeaf_symbol hint hzero hclass.2 offset, assemble_symbol htext hsharp hkey offset⟩

/-! ### Numbers -/

theorem startsPlain_of_isDigit {c : Char} (h : c.isDigit = true) : startsPlain c = true := by
  have hc := Text.isDigit_iff.mp h
  have hne : ∀ d : Char, d.toNat < 48 ∨ 57 < d.toNat → (c == d) = false := fun d hd => by
    refine beq_false_of_ne ?_
    rintro rfl
    omega
  have hblank : Text.isBlank c = false := by
    simp only [Text.isBlank, Bool.or_eq_false_iff, Bool.and_eq_false_iff, decide_eq_false_iff_not, beq_eq_false_iff_ne]
    omega
  have h1 := hne ')' (by decide)
  have h2 := hne ';' (by decide)
  have h3 := hne '(' (by decide)
  have h4 := hne '.' (by decide)
  have h5 := hne '"' (by decide)
  have h6 := hne '\'' (by decide)
  simp [startsPlain, isPlain, isMark, isQuote, bne, hblank, h1, h2, h3, h4, h5, h6]

theorem isPlain_of_startsPlain {c : Char} (h : startsPlain c = true) : isPlain c = true := by
  simp only [startsPlain, Bool.and_eq_true] at h
  exact h.1.1.1

theorem isWord_integer (i : Int) :
    IsWord (Text.integer i) ∧ ∀ c, (Text.integer i).head? = some c → isMark c = false := by
  have hdigit : ∀ n, ∀ c ∈ Text.natural n, startsPlain c = true := fun n c hc =>
    startsPlain_of_isDigit (Text.isDigit_of_mem_natural hc)
  have hmark : ∀ {c}, startsPlain c = true → isMark c = false := fun h => by
    simp only [startsPlain, Bool.and_eq_true, Bool.not_eq_true'] at h
    exact h.1.2
  cases i with
  | ofNat n =>
    obtain ⟨c, cs, hcs⟩ := List.exists_cons_of_ne_nil (Text.natural_ne_nil n)
    have hall := hdigit n
    show IsWord (Text.natural n) ∧ ∀ c, (Text.natural n).head? = some c → _
    rw [hcs] at hall ⊢
    refine ⟨isWord_plain (hall c List.mem_cons_self) fun d hd =>
      isPlain_of_startsPlain (hall d (List.mem_cons_of_mem c hd)), ?_⟩
    rintro _ ⟨⟩
    exact hmark (hall c List.mem_cons_self)
  | negSucc n =>
    refine ⟨isWord_plain (by decide) fun d hd => isPlain_of_startsPlain (hdigit (n + 1) d hd), ?_⟩
    rintro _ ⟨⟩
    rfl

/-- A number is a leaf, unless it has too many digits. -/
theorem isLeaf_integer {i : Int} (h : (Text.natural i.natAbs).length ≤ Text.maxDigits) {P : SExp → Prop}
    (hP : ∀ offset, P (located .int offset (.ofInt i))) : IsLeaf (Text.integer i) P where
  word := (isWord_integer i).1
  mark := (isWord_integer i).2
  reads offset := by
    refine ⟨located .int offset (.ofInt i), ?_, hP offset⟩
    simp only [readLeaf, readInt?, Text.integer?_integer h, Option.map_some]

/-! ### Bytes -/

theorem isPlain_hexDigit {n : Nat} (h : n < 16) : isPlain (Bytes.hexDigit n) = true := by
  interval_cases n <;> rfl

/-- Bytes in hexadecimal are a leaf. -/
theorem isLeaf_hex (b : Bytes) {P : SExp → Prop} (hP : ∀ offset, P (located .hex offset (.atom b))) :
    IsLeaf ("0x".toList ++ Bytes.toHex b) P := by
  have hplain : ∀ c ∈ 'x' :: Bytes.toHex b, isPlain c = true := by
    intro c hc
    rcases List.mem_cons.mp hc with rfl | hc
    · decide
    · obtain ⟨n, hn, rfl⟩ := Text.mem_toHex hc
      exact isPlain_hexDigit hn
  have hlast : ∀ c, ('0' :: 'x' :: Bytes.toHex b).getLast? = some c → Text.isMargin c = false := by
    intro c hc
    rcases List.mem_cons.mp (List.mem_of_getLast? hc) with rfl | hc
    · decide
    · have hblank := hplain c hc
      simp only [isPlain, Bool.and_eq_true, Bool.not_eq_true'] at hblank
      rw [Text.isMargin, hblank.1, Bool.false_and]
  have hint : Text.integer? ('0' :: 'x' :: Bytes.toHex b) = none :=
    Text.integer?_eq_none (d := 'x') (by decide) (by decide) (by decide) hlast (by simp) (by decide) (by decide)
  refine ⟨isWord_plain (by decide) hplain, by rintro c ⟨⟩; decide, fun offset => ?_⟩
  refine ⟨located .hex offset (.atom b), ?_, hP offset⟩
  have heven : (Bytes.toHex b).length % 2 ≠ 1 := by
    rw [Text.length_toHex]
    omega
  have hhex : readHex? ('0' :: 'x' :: Bytes.toHex b) offset = .ok (some (located .hex offset (.atom b))) := by
    simp only [readHex?, true_or, if_true, if_neg heven, Text.bytesOfHex?_toHex]
  show readLeaf ⟨'0' :: 'x' :: Bytes.toHex b, offset⟩ = _
  simp only [readLeaf, readInt?, hint, hhex]
  rfl

theorem isPrintable_iff {x : UInt8} :
    SExp.isPrintable x = true ↔ 32 ≤ x.toNat ∧ x.toNat ≤ 126 ∧ x.toNat ≠ 34 := by
  simp only [SExp.isPrintable, Bool.and_eq_true, decide_eq_true_eq, bne_iff_ne, ne_eq, UInt8.le_iff_toNat_le,
    ← UInt8.toNat_inj, and_assoc]
  exact Iff.rfl

/-- The kind of text between two quotes. -/
def quoteKind (q : Char) : Kind := if q = '\'' then .singleQuote else .doubleQuote

/-- A text between quotes is a leaf, if it has none itself. -/
theorem isLeaf_quoted {q : Char} (hq : isQuote q = true) {cs : List Char} (hcs : ∀ c ∈ cs, c ≠ q) {P : SExp → Prop}
    (hP : ∀ offset, P (located (quoteKind q) offset (.atom (Text.Utf8.encode cs)))) : IsLeaf (q :: cs ++ [q]) P := by
  have hclass : Text.isMargin q = false ∧ q ≠ '+' ∧ q ≠ '-' ∧ q ≠ '0' ∧ isMark q = false ∧ Text.digit? q = none ∧ q ≠ '_' := by
    simp only [isQuote, Bool.or_eq_true, beq_iff_eq] at hq
    rcases hq with rfl | rfl <;> decide
  obtain ⟨hmargin, hplus, hminus, hzero, hmark, hdigit, hunder⟩ := hclass
  have hint : Text.integer? (q :: cs ++ [q]) = none := by
    refine Text.integer?_eq_none hmargin hplus hminus ?_ List.mem_cons_self hdigit hunder
    intro d hd
    cases (List.getLast?_concat (l := q :: cs)).symm.trans hd
    exact hmargin
  refine ⟨isWord_quoted hq hcs, by rintro d ⟨⟩; exact hmark, fun offset => ⟨_, ?_, hP offset⟩⟩
  have hquoted : readQuoted? (q :: cs ++ [q]) offset =
      .ok (some (located (quoteKind q) offset (.atom (Text.Utf8.encode cs)))) := by
    obtain ⟨d, ds, hds⟩ := List.exists_cons_of_ne_nil (List.concat_ne_nil q cs)
    rw [List.cons_append, hds, readQuoted?, if_pos hq, ← hds, if_pos List.getLast?_concat, List.dropLast_concat]
    rfl
  have hhex : readHex? (q :: cs ++ [q]) offset = .ok none := by
    rw [readHex?]
    exact fun x digits heq => hzero (List.cons.inj heq).1
  simp only [readLeaf, readInt?, hint, hhex, hquoted]
  rfl

/-- Printable bytes between double quotes are a leaf. -/
theorem isLeaf_printable {b : Bytes} (hprint : b.all SExp.isPrintable = true) :
    IsLeaf ('"' :: b.map (fun x => Char.ofNat x.toNat) ++ ['"']) (Assembles (.atom b)) := by
  have hbyte : ∀ x ∈ b, 32 ≤ x.toNat ∧ x.toNat ≤ 126 ∧ x.toNat ≠ 34 := fun x hx =>
    isPrintable_iff.mp (List.all_eq_true.mp hprint x hx)
  have hascii : ∀ x ∈ b, x.toNat < 128 := fun x hx => by
    have := hbyte x hx
    omega
  have hquote : ∀ c ∈ b.map (fun x => Char.ofNat x.toNat), c ≠ '"' := by
    rintro _ hc rfl
    obtain ⟨x, hx, hchar⟩ := List.mem_map.mp hc
    have hnat := congrArg Char.toNat hchar
    rw [Text.toNat_ofNat_ascii (hascii x hx)] at hnat
    exact (hbyte x hx).2.2 hnat
  have htext : Text.Utf8.encode (b.map fun x => Char.ofNat x.toNat) = b :=
    Text.encode_map_ofNat fun x hx => UInt8.lt_iff_toNat_lt.mpr (hascii x hx)
  refine isLeaf_quoted (by decide) hquote fun offset => ?_
  rw [htext]
  exact assemble_located (by decide) (by decide) _ _

/-! ### Atoms -/

/-- An atom that is not empty is written as a leaf. -/
theorem isLeaf_atomText {b : Bytes} (hb : b ≠ []) : IsLeaf (SExp.atomText b) (Assembles (.atom b)) := by
  have hhex : IsLeaf ("0x".toList ++ Bytes.toHex b) (Assembles (.atom b)) :=
    isLeaf_hex b fun offset => assemble_located (by decide) (by decide) offset _
  rw [SExp.atomText.eq_2 b hb, SExp.atomKind]
  by_cases hlong : b.length > 2
  · rw [if_pos hlong]
    split_ifs with hprint
    · exact isLeaf_printable hprint
    · exact hhex
  · rw [if_neg hlong]
    split_ifs with hshort
    · have habs : (Bytes.toInt b).natAbs < 10 ^ 5 := by
        refine (Bytes.natAbs_toInt_le b).trans_lt ?_
        calc 256 ^ b.length ≤ 256 ^ 2 := Nat.pow_le_pow_right (by decide) (by omega)
          _ < 10 ^ 5 := by decide
      have hdigits : (Text.natural (Bytes.toInt b).natAbs).length ≤ 5 :=
        (Nat.length_toDigits_le_iff (by decide) (by decide)).mpr habs
      refine isLeaf_integer (hdigits.trans (by decide)) fun offset => ?_
      rw [SExp.ofInt, hshort]
      exact assemble_located (by decide) (by decide) offset _
    · exact hhex

section
variable {names : SExp.Names} (hnames : ∀ b name, names b = some name → SExp.keywordNames b = some name)
include hnames

/-- So is one that stands as an operator, if operators are written by their keywords or not by name. -/
theorem isLeaf_operatorText {b : Bytes} (hb : b ≠ []) : IsLeaf (SExp.operatorText names b) (Assembles (.atom b)) := by
  rw [SExp.operatorText]
  split
  · rename_i name hname
    split_ifs with hdot
    · exact isLeaf_atomText hb
    · exact isLeaf_keyword (isKeywordFor_of_keywordNames (hnames b name hname) hdot)
  · exact isLeaf_atomText hb

/-- The empty atom has no name of its own. -/
theorem operatorText_nil : SExp.operatorText names [] = "()".toList := by
  rw [SExp.operatorText]
  split
  · rename_i name hname
    have hdot : some ['.'] = some name := hnames [] name hname
    rw [if_pos (Option.some.inj hdot).symm]
    rfl
  · rfl

end

end Clvm.Node
