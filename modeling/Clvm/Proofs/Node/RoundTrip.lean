import Clvm.Node.Writer
import Clvm.Proofs.Node.Reader

/-!
# Written nodes are read back

A node that was read is written as a text that reads as the same node again, but for its offsets, so writing what was
read changes a text at most once. The one exception is a list whose rest starts with a dot of its own: its text would
read as a list that ends in what follows the dot.
-/

namespace Clvm.Node
open Token

/-! ### Nodes without their offsets -/

/-- The mark of a node's kind, without an offset. -/
def kindMark : SExp → SExp
  | .pair mark _ => mark
  | mark => mark

/-- The node without its offsets. -/
def unlocated : SExp → SExp
  | .atom b => .atom b
  | .pair head v =>
    if kindMark head = .atom Kind.cons.atom then
      match v with
      | .atom b => .pair (kindMark head) (.atom b)
      | .pair x y => .pair (kindMark head) (.pair (unlocated x) (unlocated y))
    else .pair (kindMark head) v

/-- Whether a node is a list that starts with the symbol `.`. -/
def startsWithDot : SExp → Bool
  | .pair head (.pair x _) => kindMark head == .atom Kind.cons.atom && unlocated x == symbol ['.']
  | _ => false

/-- Whether the symbol `.` starts no list that is the rest of another. -/
def noInnerDot : SExp → Bool
  | .atom _ => true
  | .pair head v =>
    if kindMark head = .atom Kind.cons.atom then
      match v with
      | .atom _ => true
      | .pair x y => !startsWithDot y && noInnerDot x && noInnerDot y
    else true

theorem unlocated_new {k : Kind} (hk : k.atom ≠ Kind.cons.atom) (v : SExp) (offset : Option Int) :
    unlocated (new k v offset) = plain k v := by
  have hmark : SExp.atom k.atom ≠ .atom Kind.cons.atom := fun h => hk (SExp.atom.inj h)
  cases offset with
  | none => rw [new, plain]; unfold unlocated; exact if_neg hmark
  | some o => rw [new, located]; unfold unlocated; exact if_neg hmark

theorem unlocated_located {k : Kind} (hk : k.atom ≠ Kind.cons.atom) (offset : Int) (v : SExp) :
    unlocated (located k offset v) = plain k v := unlocated_new hk v (some offset)

theorem unlocated_ne_symbol {k : Kind} (hcons : k.atom ≠ Kind.cons.atom) (hsymbol : k.atom ≠ Kind.symbol.atom)
    (offset : Int) (v : SExp) (name : List Char) : unlocated (located k offset v) ≠ symbol name := by
  rw [unlocated_located hcons]
  exact fun h => hsymbol (SExp.atom.inj (SExp.pair.inj h).1)

theorem unlocated_readSymbol (text : List Char) (offset : Int) : unlocated (readSymbol text offset) = symbol text :=
  unlocated_located (by decide) offset _

theorem unlocated_cons (x y : SExp) (offset : Option Int) :
    unlocated (cons x y offset) = plain .cons (.pair (unlocated x) (unlocated y)) := by
  cases offset <;> rfl

theorem unlocated_cons_congr {x y n m : SExp} {offset : Int} (o : Int) (hn : unlocated n = unlocated x)
    (hm : unlocated m = unlocated y) : unlocated (cons n m (some o)) = unlocated (cons x y (some offset)) := by
  rw [unlocated_cons, unlocated_cons, hn, hm]

theorem startsWithDot_cons (x y : SExp) (offset : Option Int) :
    startsWithDot (cons x y offset) = (unlocated x == symbol ['.']) := by
  cases offset <;> rfl

theorem noInnerDot_cons (x y : SExp) (offset : Option Int) :
    noInnerDot (cons x y offset) = (!startsWithDot y && noInnerDot x && noInnerDot y) := by
  cases offset <;> rfl

/-! ### Nodes that are read -/

/-- A node that is read from a word. -/
inductive IsReadLeaf : SExp → Prop where
  | int {i : Int} (h : (Text.natural i.natAbs).length ≤ Text.maxDigits) (offset : Int) :
      IsReadLeaf (located .int offset (.ofInt i))
  | hex (b : Bytes) (offset : Int) : IsReadLeaf (located .hex offset (.atom b))
  | quoted {q : Char} (hq : isQuote q = true) {cs : List Char} (hcs : ∀ c ∈ cs, c ≠ q) (offset : Int) :
      IsReadLeaf (located (quoteKind q) offset (.atom (Text.Utf8.encode cs)))
  | word {c : Char} {cs : List Char} (hc : startsPlain c = true) (hcs : ∀ d ∈ cs, isPlain d = true)
      (hint : Text.integer? (c :: cs) = none) (hhex : ∀ offset, readHex? (c :: cs) offset = .ok none) (offset : Int) :
      IsReadLeaf (readSymbol (c :: cs) offset)

/-- A node that is read from a text. -/
inductive IsRead : SExp → Prop where
  | leaf {n : SExp} (h : IsReadLeaf n) : IsRead n
  | mark {c : Char} (h : c = '.' ∨ c = ')') (offset : Int) : IsRead (readSymbol [c] offset)
  | null (offset : Int) : IsRead (located .null offset .nil)
  | list {x y : SExp} (hx : IsRead x) (hclose : unlocated x ≠ symbol [')']) (hy : IsRead y) (offset : Int) :
      IsRead (cons x y (some offset))

theorem encode_injective {cs ds : List Char} (h : Text.Utf8.encode cs = Text.Utf8.encode ds) : cs = ds := by
  have hcs := Text.decode?_encode cs
  rw [h, Text.decode?_encode] at hcs
  exact (Option.some.inj hcs).symm

/-- A word is no mark. -/
theorem IsReadLeaf.ne_mark {n : SExp} (h : IsReadLeaf n) {c : Char} (hc : isMark c = true) :
    unlocated n ≠ Node.symbol [c] := by
  cases h with
  | int h offset => exact unlocated_ne_symbol (by decide) (by decide) _ _ _
  | hex b offset => exact unlocated_ne_symbol (by decide) (by decide) _ _ _
  | @quoted q hq cs hcs offset =>
    have hkind : (quoteKind q).atom ≠ Kind.cons.atom ∧ (quoteKind q).atom ≠ Kind.symbol.atom := by
      rw [quoteKind]
      split <;> decide
    exact unlocated_ne_symbol hkind.1 hkind.2 _ _ _
  | @word d ds hd hds hint hhex offset =>
    rw [unlocated_readSymbol]
    intro heq
    have htext : d :: ds = [c] := encode_injective (SExp.atom.inj (SExp.pair.inj heq).2)
    cases htext
    simp only [startsPlain, Bool.and_eq_true, Bool.not_eq_true'] at hd
    rw [hd.1.2] at hc
    cases hc

theorem readHex?_eq_some {w : List Char} {offset : Int} {n : SExp} (h : readHex? w offset = .ok (some n)) :
    ∃ b, n = located .hex offset (.atom b) := by
  rw [readHex?.eq_def] at h
  split at h
  · split at h
    · dsimp only at h
      split at h
      · cases h
        exact ⟨_, rfl⟩
      · cases h
    · cases h
  · cases h

/-- Whether a word is meant as bytes does not depend on where it stands. -/
theorem readHex?_eq_none {w : List Char} {offset : Int} (h : readHex? w offset = .ok none) (offset' : Int) :
    readHex? w offset' = .ok none := by
  rw [readHex?.eq_def] at h ⊢
  split at h
  · split at h
    · dsimp only at h
      split at h <;> cases h
    · rename_i hx
      exact if_neg hx
  · rfl

theorem isReadLeaf_of_readLeaf {w : List Char} (hw : IsText w) (hmark : ∀ c, isMark c = true → w ≠ [c]) {offset : Nat}
    {n : SExp} (h : readLeaf ⟨w, offset⟩ = .ok n) : IsReadLeaf n := by
  cases hw with
  | mark hc => exact absurd rfl (hmark _ hc)
  | @plain c cs hc hcs =>
    have hquote : isQuote c = false := by
      simp only [startsPlain, Bool.and_eq_true, Bool.not_eq_true'] at hc
      exact hc.2
    have hquoted : readQuoted? (c :: cs) offset = .ok none := readQuoted?_eq_none hquote cs offset
    cases hint : Text.integer? (c :: cs) with
    | some i =>
      simp only [readLeaf, readInt?, hint, Option.map_some] at h
      cases h
      exact .int (Text.length_natural_of_integer? hint) _
    | none =>
      cases hhex : readHex? (c :: cs) offset with
      | error e =>
        simp only [readLeaf, readInt?, hint, Option.map_none, hhex] at h
        cases h
      | ok m =>
        simp only [readLeaf, readInt?, hint, Option.map_none, hhex, hquoted] at h
        cases m with
        | some m =>
          cases h
          obtain ⟨b, rfl⟩ := readHex?_eq_some hhex
          exact .hex b _
        | none =>
          cases h
          exact .word hc hcs hint (readHex?_eq_none hhex) _
  | @quoted q hq cs hcs =>
    have hleaf : IsLeaf (q :: cs ++ [q]) IsReadLeaf := isLeaf_quoted hq hcs (.quoted hq hcs)
    obtain ⟨m, hread, hm⟩ := hleaf.reads offset
    cases h.symm.trans hread
    exact hm

theorem isRead_of_readLeaf {w : List Char} (hw : IsText w) (hopen : w ≠ ['(']) {offset : Nat} {n : SExp}
    (h : readLeaf ⟨w, offset⟩ = .ok n) : IsRead n ∧ (w ≠ [')'] → unlocated n ≠ symbol [')']) := by
  by_cases hdot : w = ['.']
  · subst hdot
    cases h
    exact ⟨.mark (.inl rfl) _, fun _ => by rw [unlocated_readSymbol]; exact (by decide : symbol ['.'] ≠ symbol [')'])⟩
  by_cases hclose : w = [')']
  · subst hclose
    cases h
    exact ⟨.mark (.inr rfl) _, fun hne => absurd rfl hne⟩
  have hmark : ∀ c, isMark c = true → w ≠ [c] := by
    rintro c hc rfl
    simp only [isMark, Bool.or_eq_true, beq_iff_eq] at hc
    rcases hc with (rfl | rfl) | rfl
    · exact hopen rfl
    · exact hdot rfl
    · exact hclose rfl
  have hleaf := isReadLeaf_of_readLeaf hw hmark h
  exact ⟨.leaf hleaf, fun _ => hleaf.ne_mark (by decide)⟩

/-- What is kept of a list while it is read. -/
structure Open.IsRead (o : Open) : Prop where
  items : ∀ item ∈ o.items, Node.IsRead item.1 ∧ unlocated item.1 ≠ symbol [')']
  tail : ∀ dot n, o.dot = some (dot, some n) → Node.IsRead n
  dotted : o.dot ≠ none → o.items ≠ []

theorem Open.isRead_empty (offset : Nat) : Open.IsRead ⟨offset, [], none⟩ where
  items := by rintro _ ⟨⟩
  tail := by rintro _ _ ⟨⟩
  dotted hne := absurd rfl hne

/-- What a token can do inside an open list. -/
inductive Open.Moves (o : Open) (t : Token) : Move → Prop where
  | closeTail {dot : Nat} {tail : SExp} (hdot : o.dot = some (dot, some tail)) : o.Moves t (.close tail)
  | closeNull (hdot : o.dot = none) : o.Moves t (.close (located .null t.offset .nil))
  | dot (hdot : o.dot = none) (hitems : o.items ≠ []) : o.Moves t .dot
  | nest : o.Moves t .nest
  | leaf (hopen : t.text ≠ ['(']) (hclose : o.dot = none → t.text ≠ [')']) : o.Moves t .leaf

theorem Open.moves_of_move {o : Open} {t : Token} {m : Move} (h : o.move t = .ok m) : o.Moves t m := by
  rw [Open.move] at h
  split at h
  · rename_i dot tail hdot
    split at h <;> cases h
    exact .closeTail hdot
  · rename_i dot hdot
    split at h <;> cases h
    · exact .nest
    · rename_i hopen
      exact .leaf hopen fun hnone => by rw [hdot] at hnone; cases hnone
  · rename_i hdot
    split_ifs at h with hclose hmark hopen <;> cases h
    · exact .closeNull hdot
    · exact .dot hdot hmark.2
    · exact .nest
    · exact .leaf hopen fun _ => hclose

theorem Open.IsRead.close {o : Open} (h : o.IsRead) {n : SExp} (hn : Node.IsRead n) : Node.IsRead (o.close n) := by
  have hitems := h.items
  rw [Open.close]
  generalize o.items = items at hitems
  induction items generalizing n with
  | nil => exact hn
  | cons item items ih =>
    obtain ⟨hitem, hrest⟩ := List.forall_mem_cons.mp hitems
    exact ih (.list hitem.1 hitem.2 hn _) hrest

/-- A list is no symbol. -/
theorem Open.close_ne_symbol {o : Open} {n : SExp} (h : o.items ≠ [] ∨ ∃ offset, n = located .null offset .nil)
    (name : List Char) : unlocated (o.close n) ≠ symbol name := by
  rw [Open.close]
  rcases List.eq_nil_or_concat o.items with hnil | ⟨items, item, hitems⟩
  · rcases h with hne | ⟨offset, rfl⟩
    · exact absurd hnil hne
    · rw [hnil]
      exact unlocated_ne_symbol (by decide) (by decide) _ _ _
  · rw [hitems, List.concat_eq_append, List.foldl_append, List.foldl_cons, List.foldl_nil, unlocated_cons]
    exact fun heq => absurd (SExp.pair.inj heq).1 (by decide)

theorem Open.IsRead.add {o : Open} (h : o.IsRead) {n : SExp} (hn : Node.IsRead n)
    (hclose : o.dot = none → unlocated n ≠ symbol [')']) (offset : Nat) : (o.add n offset).IsRead := by
  rw [Open.add]
  split
  · rename_i hdot
    exact ⟨List.forall_mem_cons.mpr ⟨⟨hn, hclose hdot⟩, h.items⟩, h.tail, fun _ => List.cons_ne_nil _ _⟩
  · rename_i dot tail hdot
    refine ⟨h.items, ?_, fun _ => h.dotted (by rw [hdot]; exact Option.some_ne_none _)⟩
    rintro _ _ ⟨⟩
    exact hn

theorem isRead_of_readOpen {atEnd : SyntaxFault} {o : Open} {outer : List Open} {ts rest : List Token} {n : SExp}
    (ho : o.IsRead) (houter : ∀ p ∈ outer, p.IsRead) (hts : ∀ t ∈ ts, IsText t.text)
    (h : readOpen atEnd o outer ts = .ok (n, rest)) : IsRead n := by
  induction ts generalizing o outer with
  | nil => cases h
  | cons t ts ih =>
    obtain ⟨ht, hts⟩ := List.forall_mem_cons.mp hts
    rw [readOpen] at h
    cases hmove : o.move t with
    | error e => rw [hmove] at h; cases h
    | ok m =>
      simp only [hmove, bind, Except.bind] at h
      have hclosed : ∀ tail, IsRead tail → (o.items ≠ [] ∨ ∃ offset, tail = located .null offset .nil) →
          readClosed atEnd (o.close tail) o.offset outer ts = .ok (n, rest) → IsRead n := by
        intro tail htail hlist h
        have hlist' := ho.close htail
        cases outer with
        | nil => cases h; exact hlist'
        | cons p outer =>
          obtain ⟨hp, houter⟩ := List.forall_mem_cons.mp houter
          exact ih (hp.add hlist' (fun _ => Open.close_ne_symbol hlist _) o.offset) houter hts h
      cases Open.moves_of_move hmove with
      | @closeTail dot tail hdot =>
        have hitems : o.items ≠ [] := ho.dotted (by rw [hdot]; exact Option.some_ne_none _)
        exact hclosed tail (ho.tail dot tail hdot) (.inl hitems) (by cases outer <;> exact h)
      | closeNull hdot => exact hclosed _ (.null t.offset) (.inr ⟨_, rfl⟩) (by cases outer <;> exact h)
      | dot hdot hitems =>
        exact ih (o := { o with dot := some (t.offset, none) }) ⟨ho.items, by rintro _ _ ⟨⟩, fun _ => hitems⟩ houter hts h
      | nest =>
        exact ih (Open.isRead_empty t.offset) (List.forall_mem_cons.mpr ⟨ho, houter⟩) hts h
      | leaf hopen hclose =>
        cases hleaf : readLeaf t with
        | error e => rw [hleaf] at h; cases h
        | ok x =>
          rw [hleaf] at h
          obtain ⟨hx, hne⟩ := isRead_of_readLeaf ht hopen hleaf
          exact ih (ho.add hx (fun hdot => hne (hclose hdot)) t.offset) houter hts h

theorem isRead_of_read {source : List Char} {n : SExp} (h : read source = .ok n) : IsRead n := by
  have htexts : ∀ t ∈ (stream source).tokens, IsText t.text := isText_of_mem_scan trivial
  rw [read, readStream] at h
  generalize stream source = s at h htexts
  obtain ⟨tokens, fault⟩ := s
  cases tokens with
  | nil => cases h
  | cons t ts =>
    obtain ⟨ht, hts⟩ := List.forall_mem_cons.mp htexts
    by_cases hopen : t.text = ['(']
    · simp only [if_pos hopen] at h
      cases hread : readOpen (fault.getD .missingClose) ⟨t.offset, [], none⟩ [] ts with
      | error e => rw [hread] at h; cases h
      | ok r =>
        rw [hread] at h
        cases h
        exact isRead_of_readOpen (Open.isRead_empty t.offset) (List.forall_mem_nil _) hts hread
    · simp only [if_neg hopen] at h
      cases hread : readLeaf t with
      | error e => rw [hread] at h; cases h
      | ok x =>
        rw [hread] at h
        cases h
        exact (isRead_of_readLeaf ht hopen hread).1

/-! ### Nodes that are written -/

theorem write_cons (x y : SExp) (offset : Option Int) :
    write (cons x y offset) = write x >>= fun v => writeTail y >>= fun w => .ok ('(' :: v ++ w) := by
  cases offset <;> rfl

theorem writeTail_cons (x y : SExp) (offset : Option Int) :
    writeTail (cons x y offset) = write x >>= fun v => writeTail y >>= fun w => .ok (' ' :: v ++ w) := by
  cases offset <;> rfl

theorem write_null (offset : Option Int) : write (new .null .nil offset) = .ok "()".toList := by
  cases offset <;> rfl

theorem writeTail_null (offset : Option Int) : writeTail (new .null .nil offset) = .ok [')'] := by
  cases offset <;> rfl

/-- The kinds of nodes that are written as words. -/
def Kind.isWord : Kind → Bool
  | .cons | .null => false
  | _ => true

theorem isKind_of_isWord {k : Kind} (hk : k.isWord = true) (v : SExp) (offset : Option Int) :
    isKind .cons (new k v offset) = .ok false ∧ isKind .null (new k v offset) = .ok false := by
  have hkind : ∀ k', isKind k' (new k v offset) = .ok (k.number == k'.number) := by
    intro k'
    cases offset <;> rfl
  have hnumber : (k.number == Kind.cons.number) = false ∧ (k.number == Kind.null.number) = false := by
    cases k with
    | cons | null => cases hk
    | _ => decide
  rw [hkind, hkind, hnumber.1, hnumber.2]
  exact ⟨rfl, rfl⟩

theorem new_eq_pair (k : Kind) (v : SExp) (offset : Option Int) : ∃ head, new k v offset = .pair head v := by
  cases offset <;> exact ⟨_, rfl⟩

theorem write_new {k : Kind} (hk : k.isWord = true) (b : Bytes) (offset : Option Int) :
    write (new k (.atom b) offset) = writeLeaf (new k (.atom b) offset) := by
  obtain ⟨hcons, -⟩ := isKind_of_isWord hk (.atom b) offset
  obtain ⟨head, hnew⟩ := new_eq_pair k (.atom b) offset
  rw [hnew] at hcons ⊢
  rw [write, hcons]
  rfl

theorem writeTail_new {k : Kind} (hk : k.isWord = true) (b : Bytes) (offset : Option Int) :
    writeTail (new k (.atom b) offset) =
      writeLeaf (new k (.atom b) offset) >>= fun w => .ok (" . ".toList ++ w ++ [')']) := by
  obtain ⟨hcons, hnull⟩ := isKind_of_isWord hk (.atom b) offset
  obtain ⟨head, hnew⟩ := new_eq_pair k (.atom b) offset
  rw [hnew] at hcons hnull ⊢
  rw [writeTail, hnull, hcons]
  rfl

theorem writeLeaf_int (b : Bytes) (offset : Option Int) :
    writeLeaf (new .int (.atom b) offset) = Text.boundedInteger (Bytes.toInt b) := by
  cases offset <;> rfl

theorem writeLeaf_hex (b : Bytes) (offset : Option Int) :
    writeLeaf (new .hex (.atom b) offset) = .ok ("0x".toList ++ Bytes.toHex b) := by
  cases offset <;> rfl

theorem textOf_encode (cs : List Char) : textOf (Text.Utf8.encode cs) = .ok cs := by
  rw [textOf, Text.decode?_encode]

theorem writeLeaf_quoted {q : Char} (hq : isQuote q = true) (cs : List Char) (offset : Option Int) :
    writeLeaf (new (quoteKind q) (.atom (Text.Utf8.encode cs)) offset) = .ok (q :: cs ++ [q]) := by
  have hdouble : ∀ b, writeLeaf (new .doubleQuote (.atom b) offset) = textOf b >>= fun t => .ok ('"' :: t ++ ['"']) := by
    intro b
    cases offset <;> rfl
  have hsingle : ∀ b, writeLeaf (new .singleQuote (.atom b) offset) = textOf b >>= fun t => .ok ('\'' :: t ++ ['\'']) := by
    intro b
    cases offset <;> rfl
  simp only [isQuote, Bool.or_eq_true, beq_iff_eq] at hq
  rcases hq with rfl | rfl
  · rw [quoteKind, if_neg (by decide), hdouble, textOf_encode]
    rfl
  · rw [quoteKind, if_pos rfl, hsingle, textOf_encode]
    rfl

theorem writeLeaf_symbol (cs : List Char) (offset : Option Int) :
    writeLeaf (new .symbol (.atom (Text.Utf8.encode cs)) offset) = .ok cs := by
  have htext := Text.decode?_encode cs
  generalize Text.Utf8.encode cs = b at htext
  have hkind : kindNumber (new .symbol (.atom b) offset) = .ok Kind.symbol.number := by cases offset <;> rfl
  have hbytes : bytes (new .symbol (.atom b) offset) = .ok b := by cases offset <;> rfl
  simp only [writeLeaf, hkind, hbytes, htext, bind, Except.bind]
  rw [if_neg (by decide), if_neg (by decide), if_neg (by decide), if_neg (by decide), if_neg (by decide),
    if_neg (by decide), if_neg (by decide), if_pos (by decide)]
  rfl

/-- A word is written as a word that reads as the same node. -/
theorem IsReadLeaf.written {n : SExp} (h : IsReadLeaf n) :
    ∃ k b w, k.isWord = true ∧ (∃ offset, n = located k offset (.atom b)) ∧
      (∀ offset, writeLeaf (new k (.atom b) offset) = .ok w) ∧ IsLeaf w (unlocated · = unlocated n) := by
  cases h with
  | @int i hdigits offset =>
    refine ⟨.int, Bytes.ofInt i, Text.integer i, rfl, ⟨offset, rfl⟩, fun o => ?_, isLeaf_integer hdigits fun o => ?_⟩
    · rw [writeLeaf_int, Bytes.toInt_ofInt]
      exact if_pos hdigits
    · rw [unlocated_located (by decide), unlocated_located (by decide)]
  | hex b offset =>
    refine ⟨.hex, b, _, rfl, ⟨offset, rfl⟩, writeLeaf_hex b, isLeaf_hex b fun o => ?_⟩
    rw [unlocated_located (by decide), unlocated_located (by decide)]
  | @quoted q hq cs hcs offset =>
    have hkind : (quoteKind q).isWord = true ∧ (quoteKind q).atom ≠ Kind.cons.atom := by
      rw [quoteKind]
      split <;> decide
    refine ⟨quoteKind q, Text.Utf8.encode cs, _, hkind.1, ⟨offset, rfl⟩, writeLeaf_quoted hq cs,
      isLeaf_quoted hq hcs fun o => ?_⟩
    rw [unlocated_located hkind.2, unlocated_located hkind.2]
  | @word c cs hc hcs hint hhex offset =>
    have hclass := hc
    simp only [startsPlain, Bool.and_eq_true, Bool.not_eq_true'] at hclass
    refine ⟨.symbol, Text.Utf8.encode (c :: cs), c :: cs, rfl, ⟨offset, rfl⟩, writeLeaf_symbol _,
      isWord_plain hc hcs, by rintro d ⟨⟩; exact hclass.1.2, fun o => ⟨readSymbol (c :: cs) o, ?_, ?_⟩⟩
    · have hquoted : readQuoted? (c :: cs) o = .ok none := readQuoted?_eq_none hclass.2 cs o
      simp only [readLeaf, readInt?, hint, hhex, hquoted]
      rfl
    · rw [unlocated_readSymbol, unlocated_readSymbol]

/-- The lists that take a node for what it is: a dot is a node only at the start of a list or after its dot, and a closing
parenthesis only after the dot. -/
structure Open.Takes (n : SExp) (o : Open) : Prop where
  accepts : o.Accepts
  dot : unlocated n = symbol ['.'] → o.IsFresh ∨ o.IsDotted
  close : unlocated n = symbol [')'] → o.IsDotted

theorem Open.IsDotted.takes {o : Open} (h : o.IsDotted) (n : SExp) : o.Takes n :=
  ⟨h.accepts, fun _ => .inr h, fun _ => h⟩

theorem Open.IsFresh.takes {o : Open} (h : o.IsFresh) {n : SExp} (hclose : unlocated n ≠ symbol [')']) : o.Takes n :=
  ⟨h.accepts, fun _ => .inl h, fun hn => absurd hn hclose⟩

theorem Open.Accepts.takes {o : Open} (h : o.Accepts) {n : SExp} (hdot : unlocated n ≠ symbol ['.'])
    (hclose : unlocated n ≠ symbol [')']) : o.Takes n :=
  ⟨h, fun hn => absurd hn hdot, fun hn => absurd hn hclose⟩

theorem Open.move_mark {c : Char} (hc : c = '.' ∨ c = ')') {o : Open} {n : SExp} (hn : unlocated n = symbol [c])
    (ho : o.Takes n) (offset : Nat) : o.move ⟨[c], offset⟩ = .ok .leaf := by
  have hdotted : o.IsDotted → o.move ⟨[c], offset⟩ = .ok .leaf := by
    rintro ⟨dot, hdot⟩
    rw [Open.move, hdot]
    rcases hc with rfl | rfl <;> rfl
  rcases hc with rfl | rfl
  · rcases ho.dot hn with ⟨hitems, hdot⟩ | h
    · rw [Open.move, hdot, hitems]
      rfl
    · exact hdotted h
  · exact hdotted (ho.close hn)

/-- A dot or a closing parenthesis is read where it is a node. -/
theorem reads_mark {c : Char} (hc : c = '.' ∨ c = ')') {n : SExp} (hn : unlocated n = symbol [c]) :
    ReadsIn (Open.Takes n) [c] (unlocated · = unlocated n) := by
  intro atEnd o outer start rest ho _
  have hmark : isMark c = true := by rcases hc with rfl | rfl <;> rfl
  have hleaf : readLeaf ⟨[c], start⟩ = .ok (readSymbol [c] start) := by rcases hc with rfl | rfl <;> rfl
  refine ⟨readSymbol [c] start, start, start + 1, (unlocated_readSymbol [c] start).trans hn.symm, ?_⟩
  rw [List.singleton_append, scan_gap_mark hmark, Stream.push, readOpen, Open.move_mark hc hn ho]
  simp only [bind, Except.bind, hleaf]

/-! ### Round trips -/

/-- What a node that was read is written as reads as the node again, where its text stands for a node and where it ends a
list. -/
theorem IsRead.rereads {n : SExp} (h : IsRead n) (hdots : noInnerDot n = true) :
    (∃ w, write n = .ok w ∧ ReadsIn (Open.Takes n) w (unlocated · = unlocated n)) ∧
      (startsWithDot n = false → ∃ w, writeTail n = .ok w ∧ Closes w (unlocated · = unlocated n)) := by
  induction h with
  | leaf h =>
    obtain ⟨k, b, w, hk, ⟨offset, rfl⟩, hwrite, hleaf⟩ := h.written
    refine ⟨⟨w, (write_new hk b (some offset)).trans (hwrite (some offset)), ?_⟩, fun _ => ?_⟩
    · exact hleaf.reads_word.mono fun o ho => ho.accepts
    · refine ⟨_, (writeTail_new hk b (some offset)).trans (by rw [hwrite]; rfl), closes_dot ?_⟩
      exact hleaf.reads_word.mono fun o ho => ho.accepts
  | @mark c hc offset =>
    have hreads := reads_mark hc (unlocated_readSymbol [c] offset)
    have hwrite := writeLeaf_symbol [c] (some offset)
    refine ⟨⟨[c], (write_new rfl _ (some offset)).trans hwrite, hreads⟩, fun _ => ?_⟩
    refine ⟨_, (writeTail_new rfl _ (some offset)).trans (by rw [hwrite]; rfl), closes_dot ?_⟩
    exact hreads.mono fun o ho => ho.takes _
  | null offset =>
    have hnull : ∀ o, unlocated (located .null o .nil) = unlocated (located .null offset .nil) := by
      intro o
      rw [unlocated_located (by decide), unlocated_located (by decide)]
    exact ⟨⟨_, write_null (some offset), (reads_nil hnull).mono fun o ho => ho.accepts⟩,
      fun _ => ⟨_, writeTail_null (some offset), closes_nil hnull⟩⟩
  | @list x y hx hclose hy offset ihx ihy =>
    rw [noInnerDot_cons, Bool.and_eq_true, Bool.and_eq_true, Bool.not_eq_true'] at hdots
    obtain ⟨⟨hdot, hxdots⟩, hydots⟩ := hdots
    obtain ⟨⟨v, hv, hvreads⟩, -⟩ := ihx hxdots
    obtain ⟨w, hw, hcloses⟩ := (ihy hydots).2 hdot
    refine ⟨⟨'(' :: v ++ w, by rw [write_cons, hv, hw]; rfl, ?_⟩, fun hstart => ⟨' ' :: v ++ w, ?_, ?_⟩⟩
    · exact (reads_list (hvreads.mono fun o ho => ho.takes hclose) hcloses fun _ _ => unlocated_cons_congr).mono fun o ho => ho.accepts
    · rw [writeTail_cons, hv, hw]
      rfl
    · rw [startsWithDot_cons, beq_eq_false_iff_ne] at hstart
      exact closes_cons (hvreads.mono fun o ho => ho.takes hstart hclose) hcloses fun _ _ => unlocated_cons_congr

/-- Offsets do not show in what is written. -/
theorem IsRead.write_unlocated {n : SExp} (h : IsRead n) :
    write (unlocated n) = write n ∧ writeTail (unlocated n) = writeTail n := by
  have hword : ∀ {k b w}, k.isWord = true → (∀ offset, writeLeaf (new k (.atom b) offset) = .ok w) → ∀ offset,
      write (unlocated (located k offset (.atom b))) = write (located k offset (.atom b)) ∧
        writeTail (unlocated (located k offset (.atom b))) = writeTail (located k offset (.atom b)) := by
    intro k b w hk hwrite offset
    have hcons : k.atom ≠ Kind.cons.atom := by
      cases k with
      | cons | null => cases hk
      | _ => decide
    rw [unlocated_located hcons]
    have h := write_new hk b none
    have h' := write_new hk b (some offset)
    have ht := writeTail_new hk b none
    have ht' := writeTail_new hk b (some offset)
    rw [hwrite] at h h' ht ht'
    exact ⟨h.trans h'.symm, ht.trans ht'.symm⟩
  induction h with
  | leaf h =>
    obtain ⟨k, b, w, hk, ⟨offset, rfl⟩, hwrite, -⟩ := h.written
    exact hword hk hwrite offset
  | mark hc offset => exact hword rfl (writeLeaf_symbol _) offset
  | null offset =>
    rw [unlocated_located (by decide)]
    exact ⟨(write_null none).trans (write_null (some offset)).symm,
      (writeTail_null none).trans (writeTail_null (some offset)).symm⟩
  | @list x y hx hclose hy offset ihx ihy =>
    have hlist : unlocated (cons x y (some offset)) = cons (unlocated x) (unlocated y) none := unlocated_cons x y _
    rw [hlist, write_cons, write_cons, writeTail_cons, writeTail_cons, ihx.1, ihy.2]
    exact ⟨rfl, rfl⟩

/-- What a node that was read is written as is the text of the node. -/
theorem IsRead.read_written {n : SExp} (h : IsRead n) (hdots : noInnerDot n = true) :
    ∃ w, write n = .ok w ∧ ∃ m, read w = .ok m ∧ unlocated m = unlocated n := by
  cases h with
  | leaf h =>
    obtain ⟨k, b, w, hk, ⟨offset, rfl⟩, hwrite, hleaf⟩ := h.written
    exact ⟨w, (write_new hk b (some offset)).trans (hwrite (some offset)), read_leaf hleaf⟩
  | @mark c hc offset =>
    refine ⟨[c], (write_new rfl _ (some offset)).trans (writeLeaf_symbol [c] (some offset)), readSymbol [c] 0, ?_, ?_⟩
    · rcases hc with rfl | rfl <;> rfl
    · rw [unlocated_readSymbol, unlocated_readSymbol]
  | null offset =>
    refine ⟨_, write_null (some offset), located .null 1 .nil, rfl, ?_⟩
    rw [unlocated_located (by decide), unlocated_located (by decide)]
  | @list x y hx hclose hy offset =>
    rw [noInnerDot_cons, Bool.and_eq_true, Bool.and_eq_true, Bool.not_eq_true'] at hdots
    obtain ⟨⟨hdot, hxdots⟩, hydots⟩ := hdots
    obtain ⟨⟨v, hv, hvreads⟩, -⟩ := hx.rereads hxdots
    obtain ⟨w, hw, hcloses⟩ := (hy.rereads hydots).2 hdot
    refine ⟨'(' :: v ++ w, by rw [write_cons, hv, hw]; rfl, ?_⟩
    exact read_list (hvreads.mono fun o ho => ho.takes hclose) hcloses fun _ _ => unlocated_cons_congr

/-- A node that was read from a text is written as a text that reads as the same node, but for its offsets, and that
writing what is read from it leaves as it is. Excepted are nodes with a list that starts with the symbol `.` and is the
rest of another list. -/
theorem read_write_read {source : List Char} {n : SExp} (hread : read source = .ok n) (hdots : noInnerDot n = true) :
    ∃ w m, write n = .ok w ∧ read w = .ok m ∧ unlocated m = unlocated n ∧ write m = .ok w := by
  have hn := isRead_of_read hread
  obtain ⟨w, hw, m, hm, hsame⟩ := hn.read_written hdots
  refine ⟨w, m, hw, hm, hsame, ?_⟩
  rw [← (isRead_of_read hm).write_unlocated.1, hsame, hn.write_unlocated.1, hw]

/-- A comment, dots and a parenthesis that are symbols, quotes in quotes, half a byte, digits of another script and text
after the list. -/
theorem read_write_read_sample :
    let source := "; c\n(. 'x;y\"' 0Xabc -0 ٥_1 (b . .) #é;f 0x ''((\"\" ()) . )))rest".toList
    let text := "(. 'x;y\"' 0x0abc 0 51 (b . .) #é;f 0x '' ((\"\" ()) . )))".toList
    ∃ n, read source = .ok n ∧ noInnerDot n = true ∧
      ∃ w m, write n = .ok w ∧ w = text ∧ read w = .ok m ∧ unlocated m = unlocated n ∧ write m = .ok w := by
  intro source text
  have hdots : (read source).toOption.map noInnerDot = some true := by decide +kernel
  have htext : (read source >>= write).toOption = some text := by decide +kernel
  cases hread : read source with
  | error e => rw [hread] at hdots; cases hdots
  | ok n =>
    rw [hread] at hdots htext
    have hn : noInnerDot n = true := Option.some.inj hdots
    obtain ⟨w, m, hw, hm, hsame, hagain⟩ := read_write_read hread hn
    refine ⟨n, rfl, hn, w, m, hw, ?_, hm, hsame, hagain⟩
    have hbind : (write n).toOption = some text := htext
    rw [hw] at hbind
    exact Option.some.inj hbind

end Clvm.Node
