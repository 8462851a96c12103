import Clvm.Node.Token

/-!
# Words of source text

A word is a text that is one token wherever it stands, as long as a blank, a closing parenthesis or the end of the
text comes after it. Runs of plain characters are words, and so is quoted text without quotes inside. Every token is
such a word or a mark. A text seals if it leaves no quote open that what follows would stand in.
-/

namespace Clvm.Token

/-- A text that does not go on a word before it. -/
def EndsWord (rest : List Char) : Prop := rest = [] ∨ ∃ c cs, rest = c :: cs ∧ (Text.isBlank c = true ∨ c = ')')

/-- A text that is one token wherever it stands. -/
def IsWord (w : List Char) : Prop :=
  ∀ offset rest, EndsWord rest →
    scan .gap offset (w ++ rest) = (scan .gap (offset + w.length) rest).push ⟨w, offset⟩

/-- A character inside a word that is not quoted. -/
def isPlain (c : Char) : Bool := !Text.isBlank c && c != ')'

/-- A character that starts a word that is not quoted. -/
def startsPlain (c : Char) : Bool := isPlain c && !(c == ';') && !isMark c && !isQuote c

theorem scan_gap_blank {c : Char} (h : Text.isBlank c = true) (offset : Nat) (cs : List Char) :
    scan .gap offset (c :: cs) = scan .gap (offset + 1) cs := by
  rw [scan, if_pos h]

theorem scan_gap_mark {c : Char} (h : isMark c = true) (offset : Nat) (cs : List Char) :
    scan .gap offset (c :: cs) = (scan .gap (offset + 1) cs).push ⟨[c], offset⟩ := by
  have hblank : Text.isBlank c = false ∧ (c == ';') = false := by
    simp only [isMark, Bool.or_eq_true, beq_iff_eq] at h
    rcases h with (rfl | rfl) | rfl <;> decide
  rw [scan, hblank.1, hblank.2, if_neg Bool.false_ne_true, if_neg Bool.false_ne_true, if_pos h]

/-! ### Words that are not quoted -/

/-- A run of plain characters ends where the rest of the text starts. -/
theorem scan_bare {rest : List Char} (hrest : EndsWord rest) (start : Nat) (cs read : List Char) (offset : Nat)
    (hcs : ∀ c ∈ cs, isPlain c = true) :
    scan (.bare start read) offset (cs ++ rest) =
      (scan .gap (offset + cs.length) rest).push ⟨read.reverse ++ cs, start⟩ := by
  induction cs generalizing read offset with
  | nil =>
    rw [List.append_nil, List.nil_append, List.length_nil, Nat.add_zero]
    rcases hrest with rfl | ⟨c, cs, rfl, hc | rfl⟩
    · rfl
    · rw [scan_gap_blank hc, scan, if_pos hc]
    · rw [scan_gap_mark (c := ')') (by decide), scan, if_neg (by decide), if_pos (by decide)]
  | cons c cs ih =>
    have hc := hcs c List.mem_cons_self
    simp only [isPlain, Bool.and_eq_true, Bool.not_eq_true', bne_iff_ne, ne_eq] at hc
    rw [List.cons_append, scan, if_neg (by rw [hc.1]; exact Bool.false_ne_true), if_neg (by simpa using hc.2),
      ih _ _ fun d hd => hcs d (List.mem_cons_of_mem c hd)]
    rw [List.reverse_cons, List.append_assoc, List.singleton_append, List.length_cons, Nat.add_assoc, Nat.add_comm 1]

theorem isWord_plain {c : Char} {cs : List Char} (hc : startsPlain c = true) (hcs : ∀ d ∈ cs, isPlain d = true) :
    IsWord (c :: cs) := by
  intro offset rest hrest
  simp only [startsPlain, isPlain, Bool.and_eq_true, Bool.not_eq_true'] at hc
  obtain ⟨⟨⟨⟨hblank, -⟩, hsemi⟩, hmark⟩, hquote⟩ := hc
  rw [List.cons_append, scan, hblank, hsemi, hmark, hquote]
  simp only [Bool.false_eq_true, ↓reduceIte]
  rw [scan_bare hrest offset cs [c] (offset + 1) hcs, List.length_cons, Nat.add_assoc, Nat.add_comm 1]
  rfl

/-! ### Quoted words -/

theorem scan_quoted {q : Char} (rest : List Char) (start : Nat) (cs read : List Char) (offset : Nat)
    (hcs : ∀ c ∈ cs, c ≠ q) :
    scan (.quoted q start read) offset (cs ++ q :: rest) =
      (scan .gap (offset + cs.length + 1) rest).push ⟨read.reverse ++ cs ++ [q], start⟩ := by
  induction cs generalizing read offset with
  | nil =>
    rw [List.append_nil, List.nil_append, List.length_nil, Nat.add_zero, scan, if_pos (beq_self_eq_true q),
      List.reverse_cons]
  | cons c cs ih =>
    have hc : (c == q) = false := beq_false_of_ne (hcs c List.mem_cons_self)
    rw [List.cons_append, scan, hc, if_neg Bool.false_ne_true, ih _ _ fun d hd => hcs d (List.mem_cons_of_mem c hd)]
    rw [List.reverse_cons, List.append_assoc read.reverse, List.singleton_append, List.length_cons,
      Nat.add_assoc offset 1, Nat.add_comm 1]

theorem isWord_quoted {q : Char} (hq : isQuote q = true) {cs : List Char} (hcs : ∀ c ∈ cs, c ≠ q) :
    IsWord (q :: cs ++ [q]) := by
  intro offset rest _
  have hclass : Text.isBlank q = false ∧ (q == ';') = false ∧ isMark q = false := by
    simp only [isQuote, Bool.or_eq_true, beq_iff_eq] at hq
    rcases hq with rfl | rfl <;> decide
  have htext : q :: cs ++ [q] ++ rest = q :: (cs ++ q :: rest) := by simp
  rw [htext, scan, hclass.1, hclass.2.1, hclass.2.2]
  simp only [Bool.false_eq_true, ↓reduceIte, hq]
  rw [scan_quoted rest offset cs [q] (offset + 1) hcs]
  simp only [List.reverse_singleton, List.cons_append, List.length_cons, List.length_append,
    List.length_nil]
  congr 2
  omega

/-! ### Tokens of a text -/

/-- The texts of tokens. -/
inductive IsText : List Char → Prop where
  | mark {c : Char} (h : isMark c = true) : IsText [c]
  | plain {c : Char} {cs : List Char} (hc : startsPlain c = true) (hcs : ∀ d ∈ cs, isPlain d = true) : IsText (c :: cs)
  | quoted {q : Char} (hq : isQuote q = true) {cs : List Char} (hcs : ∀ c ∈ cs, c ≠ q) : IsText (q :: cs ++ [q])

/-- What a scanner has read of a token is the start of one. -/
def Scan.Starts : Scan → Prop
  | .gap | .comment => True
  | .bare _ text => ∃ c cs, text.reverse = c :: cs ∧ startsPlain c = true ∧ ∀ d ∈ cs, isPlain d = true
  | .quoted q _ text => isQuote q = true ∧ ∃ cs, text.reverse = q :: cs ∧ ∀ c ∈ cs, c ≠ q

theorem Scan.Starts.isText {start : Nat} {text : List Char} (h : (Scan.bare start text).Starts) : IsText text.reverse := by
  obtain ⟨c, cs, htext, hc, hcs⟩ := h
  rw [htext]
  exact .plain hc hcs

theorem Scan.Starts.bare {start : Nat} {text : List Char} (h : (Scan.bare start text).Starts) {c : Char}
    (hc : isPlain c = true) : (Scan.bare start (c :: text)).Starts := by
  obtain ⟨d, ds, htext, hd, hds⟩ := h
  refine ⟨d, ds ++ [c], by rw [List.reverse_cons, htext]; rfl, hd, fun e he => ?_⟩
  rcases List.mem_append.mp he with he | he
  · exact hds e he
  · rwa [List.mem_singleton.mp he]

theorem Scan.Starts.quoted {q : Char} {start : Nat} {text : List Char} (h : (Scan.quoted q start text).Starts) {c : Char}
    (hc : c ≠ q) : (Scan.quoted q start (c :: text)).Starts := by
  obtain ⟨hq, ds, htext, hds⟩ := h
  refine ⟨hq, ds ++ [c], by rw [List.reverse_cons, htext]; rfl, fun e he => ?_⟩
  rcases List.mem_append.mp he with he | he
  · exact hds e he
  · rwa [List.mem_singleton.mp he]

theorem Scan.starts_quoted {c : Char} (hquote : isQuote c = true) (start : Nat) : (Scan.quoted c start [c]).Starts :=
  ⟨hquote, [], rfl, List.forall_mem_nil _⟩

theorem Scan.starts_bare {c : Char} (hblank : ¬Text.isBlank c = true) (hsemi : ¬(c == ';') = true)
    (hmark : ¬isMark c = true) (hquote : ¬isQuote c = true) (start : Nat) : (Scan.bare start [c]).Starts := by
  refine ⟨c, [], rfl, ?_, List.forall_mem_nil _⟩
  have hclose : c ≠ ')' := by
    rintro rfl
    exact hmark rfl
  simp [startsPlain, isPlain, hblank, hsemi, hmark, hquote, hclose]

/-- What a character does to a scanner, whatever comes after it: it ends some tokens, and the scanner goes on. -/
theorem scan_cons {s : Scan} (hs : s.Starts) (offset : Nat) (c : Char) :
    ∃ (ended : List Token) (s' : Scan), (∀ t ∈ ended, IsText t.text) ∧ s'.Starts ∧
      ∀ cs, scan s offset (c :: cs) = ended.foldr Stream.push (scan s' (offset + 1) cs) := by
  cases s with
  | gap =>
    by_cases hblank : Text.isBlank c = true
    · exact ⟨[], .gap, List.forall_mem_nil _, trivial, fun cs => scan_gap_blank hblank offset cs⟩
    by_cases hsemi : (c == ';') = true
    · exact ⟨[], .comment, List.forall_mem_nil _, trivial, fun cs => by rw [scan, if_neg hblank, if_pos hsemi]; rfl⟩
    by_cases hmark : isMark c = true
    · exact ⟨[⟨[c], offset⟩], .gap, List.forall_mem_singleton.mpr (.mark hmark), trivial,
        fun cs => scan_gap_mark hmark offset cs⟩
    by_cases hquote : isQuote c = true
    · exact ⟨[], _, List.forall_mem_nil _, Scan.starts_quoted hquote offset,
        fun cs => by rw [scan, if_neg hblank, if_neg hsemi, if_neg hmark, if_pos hquote]; rfl⟩
    · exact ⟨[], _, List.forall_mem_nil _, Scan.starts_bare hblank hsemi hmark hquote offset,
        fun cs => by rw [scan, if_neg hblank, if_neg hsemi, if_neg hmark, if_neg hquote]; rfl⟩
  | comment =>
    by_cases hend : (c == '\n' || c == '\r') = true
    · exact ⟨[], .gap, List.forall_mem_nil _, trivial, fun cs => by rw [scan, if_pos hend]; rfl⟩
    · exact ⟨[], .comment, List.forall_mem_nil _, trivial, fun cs => by rw [scan, if_neg hend]; rfl⟩
  | bare start text =>
    by_cases hblank : Text.isBlank c = true
    · exact ⟨[⟨text.reverse, start⟩], .gap, List.forall_mem_singleton.mpr hs.isText, trivial,
        fun cs => by rw [scan, if_pos hblank]; rfl⟩
    by_cases hclose : (c == ')') = true
    · have hmark : isMark c = true := by simp [isMark, hclose]
      refine ⟨[⟨text.reverse, start⟩, ⟨[c], offset⟩], .gap, ?_, trivial,
        fun cs => by rw [scan, if_neg hblank, if_pos hclose]; rfl⟩
      exact List.forall_mem_cons.mpr ⟨hs.isText, List.forall_mem_singleton.mpr (.mark hmark)⟩
    · have hplain : isPlain c = true := by simpa [isPlain, hblank] using hclose
      exact ⟨[], _, List.forall_mem_nil _, hs.bare hplain, fun cs => by rw [scan, if_neg hblank, if_neg hclose]; rfl⟩
  | quoted q start text =>
    by_cases hquote : (c == q) = true
    · refine ⟨[⟨(c :: text).reverse, start⟩], .gap, List.forall_mem_singleton.mpr ?_, trivial,
        fun cs => by rw [scan, if_pos hquote]; rfl⟩
      obtain ⟨hq, ds, htext, hds⟩ := hs
      rw [List.reverse_cons, htext, beq_iff_eq.mp hquote]
      exact .quoted hq hds
    · exact ⟨[], _, List.forall_mem_nil _, hs.quoted (by simpa using hquote), fun cs => by rw [scan, if_neg hquote]; rfl⟩

theorem tokens_foldr_push (ts : List Token) (s : Stream) : (ts.foldr Stream.push s).tokens = ts ++ s.tokens := by
  induction ts with
  | nil => rfl
  | cons t ts ih => exact congrArg (t :: ·) ih

theorem isText_of_mem_scan {s : Scan} {offset : Nat} {cs : List Char} (hs : s.Starts) :
    ∀ t ∈ (scan s offset cs).tokens, IsText t.text := by
  induction cs generalizing s offset with
  | nil =>
    cases s with
    | gap | comment | quoted => exact nofun
    | bare start text => exact List.forall_mem_singleton.mpr hs.isText
  | cons c cs ih =>
    obtain ⟨ended, s', hended, hs', hscan⟩ := scan_cons hs offset c
    rw [hscan, tokens_foldr_push]
    exact List.forall_mem_append.mpr ⟨hended, ih hs'⟩

/-! ### Quotes that are closed -/

/-- A text that leaves no quote open: what follows it has the faults that it has by itself. -/
def Seals (w : List Char) : Prop :=
  ∀ offset rest, EndsWord rest → (scan .gap offset (w ++ rest)).fault = (scan .gap (offset + w.length) rest).fault

theorem IsWord.seals {w : List Char} (h : IsWord w) : Seals w := by
  intro offset rest hrest
  rw [h offset rest hrest]
  rfl

theorem seals_cons {c : Char} {w : List Char} (hc : Text.isBlank c = true ∨ isMark c = true) (h : Seals w) :
    Seals (c :: w) := by
  intro offset rest hrest
  have hfirst : (scan .gap offset (c :: (w ++ rest))).fault = (scan .gap (offset + 1) (w ++ rest)).fault := by
    rcases hc with hc | hc
    · rw [scan_gap_blank hc]
    · rw [scan_gap_mark hc]
      rfl
  rw [List.cons_append, hfirst, h _ rest hrest, List.length_cons, Nat.add_assoc, Nat.add_comm 1]

theorem Seals.append {v w : List Char} (hv : Seals v) (hw : Seals w) (hends : ∀ rest, EndsWord (w ++ rest)) :
    Seals (v ++ w) := by
  intro offset rest hrest
  rw [List.append_assoc, hv offset _ (hends rest), hw _ rest hrest, List.length_append, Nat.add_assoc]

theorem seals_nil : Seals [] := fun _ _ _ => rfl

/-- A text that leaves no quote open has no fault. -/
theorem Seals.fault {w : List Char} (h : Seals w) : (stream w).fault = none := by
  have hend := h 0 [] (.inl rfl)
  rwa [List.append_nil] at hend

end Clvm.Token
