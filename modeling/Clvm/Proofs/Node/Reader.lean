import Clvm.Proofs.Node.Leaf

/-!
# Reading written lists

A text reads as a node if it gives the node to a list that is open, and closes with a node if it ends any list that has
an item so that the node is its rest. Both are built up along the writing of a list. A dot and a closing parenthesis are
nodes only where a list takes them for such, so a text is read in the lists of some class.
-/

namespace Clvm.Node
open Token

/-! ### Tokens inside a list -/

/-- A list that takes one more node, be it an item or the node after the dot. -/
def Open.Accepts (o : Open) : Prop := ∀ dot tail, o.dot ≠ some (dot, some tail)

/-- Reads on after the innermost list is closed. -/
def readClosed (atEnd : SyntaxFault) (n : SExp) (offset : Nat) :
    List Open → List Token → Except Error (SExp × List Token)
  | [], ts => .ok (n, ts)
  | o :: outer, ts => readOpen atEnd (o.add n offset) outer ts

theorem Open.move_nest {o : Open} (h : o.Accepts) (offset : Nat) : o.move ⟨['('], offset⟩ = .ok .nest := by
  rw [Open.move]
  split
  · rename_i dot tail hdot
    exact absurd hdot (h dot tail)
  · rfl
  · rfl

theorem Open.move_leaf {o : Open} (h : o.Accepts) {w : List Char} (hw : ∀ c, w.head? = some c → isMark c = false)
    (offset : Nat) : o.move ⟨w, offset⟩ = .ok .leaf := by
  have hmark : ∀ c, isMark c = true → w ≠ [c] := by
    rintro c hc rfl
    rw [hw c rfl] at hc
    cases hc
  have hclose := hmark ')' (by decide)
  have hdot := hmark '.' (by decide)
  have hopen := hmark '(' (by decide)
  rw [Open.move]
  split
  · rename_i dot tail hsome
    exact absurd hsome (h dot tail)
  · rw [if_neg hopen]
  · rw [if_neg hclose, if_neg fun h => hdot h.1, if_neg hopen]

section
variable (atEnd : SyntaxFault) (o : Open) (outer : List Open) (offset : Nat) (rest : List Char)

theorem readOpen_blank {c : Char} (h : Text.isBlank c = true) :
    readOpen atEnd o outer (scan .gap offset (c :: rest)).tokens =
      readOpen atEnd o outer (scan .gap (offset + 1) rest).tokens := by
  rw [scan_gap_blank h]

theorem readOpen_leaf {w : List Char} {P : SExp → Prop} (hw : IsLeaf w P) (ho : o.Accepts) (hrest : EndsWord rest) :
    ∃ n, P n ∧ readOpen atEnd o outer (scan .gap offset (w ++ rest)).tokens =
      readOpen atEnd (o.add n offset) outer (scan .gap (offset + w.length) rest).tokens := by
  obtain ⟨n, hread, hn⟩ := hw.reads offset
  refine ⟨n, hn, ?_⟩
  rw [hw.word offset rest hrest, Stream.push, readOpen, Open.move_leaf ho hw.mark]
  simp only [bind, Except.bind, hread]

theorem readOpen_nest (ho : o.Accepts) :
    readOpen atEnd o outer (scan .gap offset ('(' :: rest)).tokens =
      readOpen atEnd ⟨offset, [], none⟩ (o :: outer) (scan .gap (offset + 1) rest).tokens := by
  rw [scan_gap_mark (by decide), Stream.push, readOpen, Open.move_nest ho]
  rfl

theorem readOpen_dot (hdot : o.dot = none) (hitems : o.items ≠ []) :
    readOpen atEnd o outer (scan .gap offset ('.' :: rest)).tokens =
      readOpen atEnd { o with dot := some (offset, none) } outer (scan .gap (offset + 1) rest).tokens := by
  have hmove : o.move ⟨['.'], offset⟩ = .ok .dot := by
    rw [Open.move, hdot]
    show (if ['.'] = [')'] then _ else _) = _
    rw [if_neg (by decide), if_pos ⟨rfl, hitems⟩]
  rw [scan_gap_mark (by decide), Stream.push, readOpen, hmove]
  rfl

/-- A closing parenthesis ends a list by the node after its dot, or by an empty one. -/
theorem readOpen_close {n : SExp}
    (h : o.dot = none ∧ n = located .null offset .nil ∨ ∃ dot, o.dot = some (dot, some n)) :
    readOpen atEnd o outer (scan .gap offset (')' :: rest)).tokens =
      readClosed atEnd (o.close n) o.offset outer (scan .gap (offset + 1) rest).tokens := by
  have hmove : o.move ⟨[')'], offset⟩ = .ok (.close n) := by
    rw [Open.move]
    rcases h with ⟨hdot, rfl⟩ | ⟨dot, hdot⟩
    · rw [hdot]
      rfl
    · rw [hdot]
      rfl
  rw [scan_gap_mark (by decide), Stream.push, readOpen, hmove]
  cases outer <;> rfl

end

/-! ### Texts of lists -/

/-- A text that gives a node to any list of a class. -/
def ReadsIn (lists : Open → Prop) (w : List Char) (P : SExp → Prop) : Prop :=
  ∀ atEnd o outer offset rest, lists o → EndsWord rest →
    ∃ n start next, P n ∧ readOpen atEnd o outer (scan .gap offset (w ++ rest)).tokens =
      readOpen atEnd (o.add n start) outer (scan .gap next rest).tokens

/-- A text that gives a node to any list that takes one. -/
abbrev Reads : List Char → (SExp → Prop) → Prop := ReadsIn Open.Accepts

/-- A list in which a dot would be its first node. -/
def Open.IsFresh (o : Open) : Prop := o.items = [] ∧ o.dot = none

/-- A list that waits for the node after its dot. -/
def Open.IsDotted (o : Open) : Prop := ∃ dot, o.dot = some (dot, none)

/-- A text that ends any list that has an item, with a node for its rest. -/
structure Closes (w : List Char) (P : SExp → Prop) : Prop where
  ends : ∀ rest, EndsWord (w ++ rest)
  closes : ∀ atEnd (o : Open) outer offset rest, o.dot = none → o.items ≠ [] →
    ∃ n next, P n ∧ readOpen atEnd o outer (scan .gap offset (w ++ rest)).tokens =
      readClosed atEnd (o.close n) o.offset outer (scan .gap next rest).tokens

section
variable {v w : List Char} {P Q R : SExp → Prop}

theorem IsLeaf.reads_word (h : IsLeaf w P) : Reads w P := by
  intro atEnd o outer offset rest ho hrest
  obtain ⟨n, hn, hread⟩ := readOpen_leaf atEnd o outer offset rest h ho hrest
  exact ⟨n, offset, _, hn, hread⟩

theorem ReadsIn.mono {lists lists' : Open → Prop} (h : ReadsIn lists w P) (hlists : ∀ o, lists' o → lists o) :
    ReadsIn lists' w P := fun atEnd o outer offset rest ho => h atEnd o outer offset rest (hlists o ho)

theorem Open.accepts_of_dot {o : Open} (h : o.dot = none) : o.Accepts := by
  intro dot tail hsome
  rw [h] at hsome
  cases hsome

theorem Open.add_of_dot {o : Open} (h : o.dot = none) (n : SExp) (offset : Nat) :
    o.add n offset = { o with items := (n, offset) :: o.items } := by
  rw [Open.add, h]

theorem endsWord_blank {c : Char} (h : Text.isBlank c = true) (rest : List Char) : EndsWord (c :: rest) :=
  Or.inr ⟨c, rest, rfl, Or.inl h⟩

theorem endsWord_close (rest : List Char) : EndsWord (')' :: rest) :=
  Or.inr ⟨')', rest, rfl, Or.inr rfl⟩

theorem Open.IsFresh.accepts {o : Open} (h : o.IsFresh) : o.Accepts := Open.accepts_of_dot h.2

theorem Open.IsDotted.accepts {o : Open} (h : o.IsDotted) : o.Accepts := by
  obtain ⟨dot, h⟩ := h
  intro dot' tail hsome
  rw [h] at hsome
  cases hsome

/-- Between the items and the end of a list stands nothing. -/
theorem closes_nil (hP : ∀ offset, P (located .null offset .nil)) : Closes [')'] P where
  ends := endsWord_close
  closes atEnd o outer offset rest hdot _ :=
    ⟨_, _, hP offset, readOpen_close atEnd o outer offset rest (.inl ⟨hdot, rfl⟩)⟩

/-- A list with a dot ends in the node after the dot. -/
theorem closes_dot (h : ReadsIn Open.IsDotted w P) : Closes (" . ".toList ++ w ++ [')']) P where
  ends rest := endsWord_blank (by decide) _
  closes atEnd o outer offset rest hdot hitems := by
    obtain ⟨n, start, next, hn, hread⟩ := h atEnd { o with dot := some (offset + 1, none) } outer (offset + 1 + 1 + 1)
      (')' :: rest) ⟨offset + 1, rfl⟩ (endsWord_close rest)
    refine ⟨n, next + 1, hn, ?_⟩
    have htext : " . ".toList ++ w ++ [')'] ++ rest = ' ' :: '.' :: ' ' :: (w ++ ')' :: rest) := by simp
    rw [htext, readOpen_blank _ _ _ _ _ (by decide), readOpen_dot _ _ _ _ _ hdot hitems,
      readOpen_blank _ _ _ _ _ (by decide), hread]
    exact readOpen_close atEnd _ outer next rest (.inr ⟨offset + 1, rfl⟩)

/-- One more item goes in front of the rest of a list. -/
theorem closes_cons (hv : Reads v P) (hw : Closes w Q) (hR : ∀ n m offset, P n → Q m → R (cons n m (some offset))) :
    Closes (' ' :: v ++ w) R where
  ends rest := endsWord_blank (by decide) _
  closes atEnd o outer offset rest hdot hitems := by
    obtain ⟨n, start, next, hn, hread⟩ := hv atEnd o outer (offset + 1) (w ++ rest) (Open.accepts_of_dot hdot)
      (hw.ends rest)
    obtain ⟨m, last, hm, hclose⟩ := hw.closes atEnd (o.add n start) outer next rest
      (by rw [Open.add_of_dot hdot]; exact hdot) (by rw [Open.add_of_dot hdot]; exact List.cons_ne_nil _ _)
    refine ⟨cons n m (some start), last, hR n m start hn hm, ?_⟩
    have htext : ' ' :: v ++ w ++ rest = ' ' :: (v ++ (w ++ rest)) := by simp
    rw [htext, readOpen_blank _ _ _ _ _ (by decide), hread, hclose, Open.add_of_dot hdot]
    rfl

/-- A list that has just been opened is read up to its end. -/
theorem readOpen_list (hv : ReadsIn Open.IsFresh v P) (hw : Closes w Q)
    (hR : ∀ n m offset, P n → Q m → R (cons n m (some offset))) (atEnd : SyntaxFault) (start : Nat) (outer : List Open)
    (offset : Nat) (rest : List Char) :
    ∃ n next, R n ∧
      readOpen atEnd ⟨start, [], none⟩ outer (scan .gap offset (v ++ (w ++ rest))).tokens =
        readClosed atEnd n start outer (scan .gap next rest).tokens := by
  obtain ⟨n, first, middle, hn, hread⟩ := hv atEnd ⟨start, [], none⟩ outer offset (w ++ rest) ⟨rfl, rfl⟩ (hw.ends rest)
  obtain ⟨m, next, hm, hclose⟩ := hw.closes atEnd ⟨start, [(n, first)], none⟩ outer middle rest rfl
    (List.cons_ne_nil _ _)
  exact ⟨cons n m (some first), next, hR n m first hn hm, hread.trans hclose⟩

theorem reads_list (hv : ReadsIn Open.IsFresh v P) (hw : Closes w Q)
    (hR : ∀ n m offset, P n → Q m → R (cons n m (some offset))) : Reads ('(' :: v ++ w) R := by
  intro atEnd o outer offset rest ho _
  obtain ⟨n, next, hn, hread⟩ := readOpen_list hv hw hR atEnd offset (o :: outer) (offset + 1) rest
  refine ⟨n, offset, next, hn, ?_⟩
  have htext : '(' :: v ++ w ++ rest = '(' :: (v ++ (w ++ rest)) := by simp
  rw [htext, readOpen_nest _ _ _ _ _ ho, hread]
  rfl

theorem reads_nil (hP : ∀ offset, P (located .null offset .nil)) : Reads "()".toList P := by
  intro atEnd o outer offset rest ho _
  refine ⟨located .null (offset + 1 : Nat) .nil, offset, offset + 1 + 1, hP _, ?_⟩
  show readOpen atEnd o outer (scan .gap offset ('(' :: ')' :: rest)).tokens = _
  rw [readOpen_nest _ _ _ _ _ ho, readOpen_close _ _ _ _ _ (.inl ⟨rfl, rfl⟩)]
  rfl

/-! ### Texts -/

/-- The text of a list is read up to its end. -/
theorem readStream_list (hv : ReadsIn Open.IsFresh v P) (hw : Closes w Q)
    (hR : ∀ n m offset, P n → Q m → R (cons n m (some offset))) :
    ∃ n, readStream (stream ('(' :: v ++ w)) = .ok (n, []) ∧ R n := by
  obtain ⟨n, next, hn, hread⟩ := readOpen_list hv hw hR ((stream ('(' :: v ++ w)).fault.getD .missingClose) 0 [] 1 []
  refine ⟨n, ?_, hn⟩
  have htokens : (stream ('(' :: v ++ w)).tokens = ⟨['('], 0⟩ :: (scan .gap 1 (v ++ (w ++ []))).tokens := by
    rw [stream, List.cons_append, scan_gap_mark (by decide), List.append_nil]
    rfl
  rw [readStream, htokens]
  exact hread

theorem read_list (hv : ReadsIn Open.IsFresh v P) (hw : Closes w Q)
    (hR : ∀ n m offset, P n → Q m → R (cons n m (some offset))) : ∃ n, read ('(' :: v ++ w) = .ok n ∧ R n := by
  obtain ⟨n, hread, hn⟩ := readStream_list hv hw hR
  refine ⟨n, ?_, hn⟩
  rw [read, hread]
  rfl

/-- So is a word. -/
theorem readStream_word (h : IsLeaf w P) : ∃ n, readStream (stream w) = .ok (n, []) ∧ P n := by
  obtain ⟨n, hread, hn⟩ := h.reads 0
  refine ⟨n, ?_, hn⟩
  have hstream : stream w = ⟨[⟨w, 0⟩], none⟩ := by
    have hword := h.word 0 [] (.inl rfl)
    rwa [List.append_nil] at hword
  have hopen : w ≠ ['('] := by
    rintro rfl
    exact absurd (h.mark '(' rfl) (by decide)
  rw [hstream]
  simp only [readStream, if_neg hopen, hread]
  rfl

theorem read_leaf (h : IsLeaf w P) : ∃ n, read w = .ok n ∧ P n := by
  obtain ⟨n, hread, hn⟩ := readStream_word h
  refine ⟨n, ?_, hn⟩
  rw [read, hread]
  rfl

end

end Clvm.Node
