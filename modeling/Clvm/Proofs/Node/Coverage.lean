import Clvm.Proofs.Node.Token
import Clvm.Text.Split

/-!
# Tokens cover their text

A text without a fault is its tokens with blanks and comments around them: `Covers` lays the text out from left to right,
and the scanner follows it whatever it is inside of. That tokens stand at their offsets, one after the other, and what is left
between them are read off the layout. Joined by blanks, the tokens are scanned again as they are.
-/

namespace Clvm.Token

/-- The number of characters up to the end of a token. -/
def stop (t : Token) : Nat := t.offset + t.text.length

/-- The characters of a text from one offset up to another. -/
def slice (source : List Char) (start stop : Nat) : List Char := (source.take stop).drop start

/-- What stands before, between and after tokens. -/
def gaps (source : List Char) : Nat → List Token → List (List Char)
  | start, [] => [source.drop start]
  | start, t :: ts => slice source start t.offset :: gaps source t.stop ts

def isLineEnd (c : Char) : Bool := c == '\n' || c == '\r'

/-- Blanks and comments. A comment goes up to the end of its line, and where the text may end, up to there. -/
inductive IsLayout (mayEnd : Prop) : List Char → Prop where
  | nil : IsLayout mayEnd []
  | blank {c : Char} {cs : List Char} (hc : Text.isBlank c = true) (h : IsLayout mayEnd cs) : IsLayout mayEnd (c :: cs)
  | comment {e : Char} {body cs : List Char} (hbody : ∀ c ∈ body, isLineEnd c = false) (he : isLineEnd e = true)
      (h : IsLayout mayEnd (e :: cs)) : IsLayout mayEnd (';' :: body ++ e :: cs)
  | lastComment {body : List Char} (hend : mayEnd) (hbody : ∀ c ∈ body, isLineEnd c = false) :
      IsLayout mayEnd (';' :: body)

/-- From an offset on, a text is the tokens with layout around them. -/
inductive Covers : Nat → List Char → List Token → Prop where
  | done {offset : Nat} {gap : List Char} (hgap : IsLayout True gap) : Covers offset gap []
  | token {offset : Nat} {gap w rest : List Char} {ts : List Token} (hgap : IsLayout False gap) (hw : w ≠ [])
      (h : Covers (offset + gap.length + w.length) rest ts) :
      Covers offset (gap ++ (w ++ rest)) (⟨w, offset + gap.length⟩ :: ts)

/-! ### What the scanner follows -/

theorem isBlank_of_isLineEnd {c : Char} (h : isLineEnd c = true) : Text.isBlank c = true := by
  simp only [isLineEnd, Bool.or_eq_true, beq_iff_eq] at h
  rcases h with rfl | rfl <;> decide

/-- What is layout in front of all layout may stand in front of a text. -/
theorem Covers.after (front : List Char) (hfront : ∀ {mayEnd gap}, IsLayout mayEnd gap → IsLayout mayEnd (front ++ gap))
    {offset : Nat} {cs : List Char} {ts : List Token} (h : Covers (offset + front.length) cs ts) :
    Covers offset (front ++ cs) ts := by
  cases h with
  | done hgap => exact .done (hfront hgap)
  | @token _ gap w rest ts hgap hw h =>
    have hlength : offset + front.length + gap.length = offset + (front ++ gap).length := by
      rw [List.length_append, Nat.add_assoc]
    rw [hlength] at h ⊢
    rw [← List.append_assoc]
    exact .token (hfront hgap) hw h

/-- The tokens cover what is left to scan together with what the scanner has read of a token or of a comment. -/
def Scan.Covers : Scan → Nat → List Char → List Token → Prop
  | .gap, offset, cs, ts => Token.Covers offset cs ts
  | .comment, offset, cs, ts => ∀ start body, (∀ c ∈ body, isLineEnd c = false) → start + (body.length + 1) = offset →
      Token.Covers start (';' :: body ++ cs) ts
  | .bare start text, offset, cs, ts | .quoted _ start text, offset, cs, ts => text ≠ [] → start + text.length = offset →
      Token.Covers start (text.reverse ++ cs) ts

theorem covers_blank {c : Char} (hc : Text.isBlank c = true) {offset : Nat} {cs : List Char} {ts : List Token}
    (h : Covers (offset + 1) cs ts) : Covers offset (c :: cs) ts :=
  Covers.after [c] (.blank hc) h

/-- A token that ends where a text goes on. -/
theorem covers_token {start stop : Nat} {text cs : List Char} {ts : List Token} (htext : text ≠ [])
    (hstop : start + text.length = stop) (h : Covers stop cs ts) :
    Covers start (text.reverse ++ cs) (⟨text.reverse, start⟩ :: ts) := by
  refine @Covers.token start [] text.reverse cs ts .nil (by simpa using htext) ?_
  simpa [hstop] using h

theorem scan_covers {s : Scan} {offset : Nat} {cs : List Char} (h : (scan s offset cs).fault = none) :
    s.Covers offset cs (scan s offset cs).tokens := by
  fun_induction scan s offset cs with
  | case1 offset => exact .done .nil
  | case2 offset c cs hblank ih => exact covers_blank hblank (ih h)
  | case3 offset c cs hblank hsemi ih =>
    rw [beq_iff_eq] at hsemi
    subst hsemi
    exact ih h offset [] (List.forall_mem_nil _) rfl
  | case4 offset c cs hblank hsemi hmark ih =>
    exact covers_token (List.cons_ne_nil c []) rfl (ih h)
  | case5 offset c cs hblank hsemi hmark hquote ih => exact ih h (List.cons_ne_nil _ _) rfl
  | case6 offset c cs hblank hsemi hmark hquote ih => exact ih h (List.cons_ne_nil _ _) rfl
  | case7 offset =>
    intro start body hbody hstart
    rw [List.append_nil]
    exact .done (.lastComment trivial hbody)
  | case8 offset c cs hend ih =>
    intro start body hbody hstart
    have hfront : ∀ {mayEnd gap}, IsLayout mayEnd gap → IsLayout mayEnd (';' :: body ++ [c] ++ gap) := by
      intro mayEnd gap hgap
      simpa using IsLayout.comment hbody hend (.blank (isBlank_of_isLineEnd hend) hgap)
    have hstop : offset + 1 = start + (';' :: body ++ [c]).length := by
      simp only [List.length_append, List.length_cons, List.length_nil]
      omega
    have hrest : Covers (offset + 1) cs (scan .gap (offset + 1) cs).tokens := ih h
    rw [hstop] at hrest
    simpa [hstop] using Covers.after _ hfront hrest
  | case9 offset c cs hend ih =>
    intro start body hbody hstart
    have hbody' : ∀ d ∈ body ++ [c], isLineEnd d = false := by
      intro d hd
      rcases List.mem_append.mp hd with hd | hd
      · exact hbody d hd
      · rw [List.mem_singleton.mp hd]
        exact Bool.eq_false_iff.mpr hend
    simpa using ih h start (body ++ [c]) hbody' (by simp; omega)
  | case10 start text offset =>
    intro htext hstart
    exact covers_token htext hstart (.done .nil)
  | case11 start text offset c cs hblank ih =>
    intro htext hstart
    exact covers_token htext hstart (covers_blank hblank (ih h))
  | case12 start text offset c cs hblank hclose ih =>
    intro htext hstart
    have hmark : Covers offset (c :: cs) (⟨[c], offset⟩ :: (scan .gap (offset + 1) cs).tokens) :=
      covers_token (List.cons_ne_nil c []) rfl (ih h)
    exact covers_token htext hstart hmark
  | case13 start text offset c cs hblank hclose ih =>
    intro htext hstart
    simpa using ih h (List.cons_ne_nil _ _) (by simp; omega)
  | case14 q start text offset => cases h
  | case15 q start text offset c cs hquote ih =>
    intro htext hstart
    have htext' : text.reverse ++ c :: cs = (c :: text).reverse ++ cs := by simp
    rw [htext']
    exact covers_token (List.cons_ne_nil _ _) (by simp; omega) (ih h)
  | case16 q start text offset c cs hquote ih =>
    intro htext hstart
    simpa using ih h (List.cons_ne_nil _ _) (by simp; omega)

/-! ### What a layout tells -/

section Read
variable {offset : Nat} {cs : List Char} {ts : List Token}

theorem Covers.offset_le (h : Covers offset cs ts) : ∀ t ∈ ts, offset ≤ t.offset := by
  induction h with
  | done => exact nofun
  | token hgap hw h ih =>
    refine List.forall_mem_cons.mpr ⟨by simp, fun t ht => ?_⟩
    have := ih t ht
    omega

theorem Covers.pairwise (h : Covers offset cs ts) : ts.Pairwise fun t u => t.stop ≤ u.offset := by
  induction h with
  | done => exact .nil
  | token hgap hw h ih => exact .cons h.offset_le ih

theorem slice_append (before piece rest : List Char) {start stop : Nat} (hstart : before.length = start)
    (hstop : start + piece.length = stop) : slice (before ++ (piece ++ rest)) start stop = piece := by
  subst hstart hstop
  simp [slice, List.take_append]

theorem Covers.slice_eq (h : Covers offset cs ts) (before : List Char) (hbefore : before.length = offset) :
    ∀ t ∈ ts, t.text ≠ [] ∧ slice (before ++ cs) t.offset t.stop = t.text := by
  induction h generalizing before with
  | done => exact nofun
  | @token offset gap w rest ts hgap hw h ih =>
    have hrest := ih (before ++ gap ++ w) (by simp [hbefore, Nat.add_assoc])
    simp only [List.append_assoc] at hrest
    refine List.forall_mem_cons.mpr ⟨⟨hw, ?_⟩, hrest⟩
    rw [← List.append_assoc before]
    exact slice_append (before ++ gap) w rest (by simp [hbefore]) rfl

theorem Covers.gaps_eq (h : Covers offset cs ts) (before : List Char) (hbefore : before.length = offset) :
    ∃ inner last, gaps (before ++ cs) offset ts = inner ++ [last] ∧ (∀ gap ∈ inner, IsLayout False gap) ∧
      IsLayout True last := by
  induction h generalizing before with
  | @done offset gap hgap =>
    refine ⟨[], gap, ?_, nofun, hgap⟩
    simp [gaps, ← hbefore]
  | @token offset gap w rest ts hgap hw h ih =>
    obtain ⟨inner, last, hgaps, hinner, hlast⟩ := ih (before ++ gap ++ w) (by simp [hbefore, Nat.add_assoc])
    refine ⟨gap :: inner, last, ?_, List.forall_mem_cons.mpr ⟨hgap, hinner⟩, hlast⟩
    rw [gaps, slice_append before gap (w ++ rest) hbefore rfl]
    simp only [List.append_assoc] at hgaps
    simp only [stop, hgaps, List.cons_append]

end Read

/-! ### Tokens joined by blanks -/

theorem scan_text {w rest : List Char} (hw : IsText w) (hrest : EndsWord rest) (offset : Nat) :
    scan .gap offset (w ++ rest) = (scan .gap (offset + w.length) rest).push ⟨w, offset⟩ := by
  cases hw with
  | mark h => exact scan_gap_mark h offset rest
  | plain hc hcs => exact isWord_plain hc hcs offset rest hrest
  | quoted hq hcs => exact isWord_quoted hq hcs offset rest hrest

theorem scan_join {ws : List (List Char)} (hws : ∀ w ∈ ws, IsText w) (offset : Nat) :
    (scan .gap offset (Text.join [' '] ws)).fault = none ∧
      (scan .gap offset (Text.join [' '] ws)).tokens.map (·.text) = ws := by
  fun_induction Text.join [' '] ws generalizing offset with
  | case1 => exact ⟨rfl, rfl⟩
  | case2 w =>
    have hw := scan_text (hws w List.mem_cons_self) (.inl rfl) offset
    rw [List.append_nil] at hw
    rw [hw]
    exact ⟨rfl, rfl⟩
  | case3 w ws hne ih =>
    obtain ⟨hw, hws⟩ := List.forall_mem_cons.mp hws
    have hblank : Text.isBlank ' ' = true := by decide
    have hends : EndsWord (' ' :: Text.join [' '] ws) := .inr ⟨' ', _, rfl, .inl hblank⟩
    obtain ⟨hfault, htokens⟩ := ih hws (offset + w.length + 1)
    rw [List.append_assoc, List.singleton_append, scan_text hw hends, scan_gap_blank hblank]
    exact ⟨hfault, congrArg (w :: ·) htokens⟩

/-! ### Streams -/

/-- The tokens of a text without a fault stand at their offsets, one after the other, with nothing but layout before, between
and after them; a comment is cut short only by the end of the text. Joined by blanks, they are the tokens of the text that
this gives. -/
theorem stream_loses_nothing {source : List Char} (h : (stream source).fault = none) :
    let tokens := (stream source).tokens
    let again := stream (Text.join [' '] (tokens.map (·.text)))
    tokens.Pairwise (fun t u => t.offset < u.offset ∧ t.stop ≤ u.offset) ∧
    (∀ t ∈ tokens, t.text ≠ [] ∧ slice source t.offset t.stop = t.text) ∧
    (∃ inner last, gaps source 0 tokens = inner ++ [last] ∧ (∀ g ∈ inner, IsLayout False g) ∧ IsLayout True last) ∧
    again.fault = none ∧ again.tokens.map (·.text) = tokens.map (·.text) := by
  intro tokens again
  have hcovers : Covers 0 source tokens := scan_covers h
  have htexts : ∀ w ∈ tokens.map (·.text), IsText w := by
    intro w hw
    obtain ⟨t, ht, rfl⟩ := List.mem_map.mp hw
    exact isText_of_mem_scan (s := .gap) trivial t ht
  have hslices := hcovers.slice_eq [] rfl
  refine ⟨?_, hslices, hcovers.gaps_eq [] rfl, scan_join htexts 0⟩
  refine hcovers.pairwise.imp_of_mem fun {t u} ht _ hstop => ⟨?_, hstop⟩
  have hpos := List.length_pos_iff.mpr (hslices t ht).1
  simp only [stop] at hstop
  omega

/-- A text with a comment in a gap, one in front of a token and one at its end, and with marks inside other tokens. -/
theorem stream_loses_nothing_comments :
    let source := "(a;b ';c'\n ; (\r;\"\n\"x ;\".);".toList
    let tokens := (stream source).tokens
    let again := stream (Text.join [' '] (tokens.map (·.text)))
    (stream source).fault = none ∧
    tokens = [⟨['('], 0⟩, ⟨"a;b".toList, 1⟩, ⟨"';c'".toList, 5⟩, ⟨"\"x ;\"".toList, 18⟩, ⟨['.'], 23⟩, ⟨[')'], 24⟩] ∧
    tokens.Pairwise (fun t u => t.offset < u.offset ∧ t.stop ≤ u.offset) ∧
    (∀ t ∈ tokens, t.text ≠ [] ∧ slice source t.offset t.stop = t.text) ∧
    (∃ inner last, gaps source 0 tokens = inner ++ [last] ∧ (∀ g ∈ inner, IsLayout False g) ∧ IsLayout True last) ∧
    again.fault = none ∧ again.tokens.map (·.text) = tokens.map (·.text) := by
  intro source tokens again
  have hfault : (stream source).fault = none := by decide +kernel
  exact ⟨hfault, by decide +kernel, stream_loses_nothing hfault⟩

end Clvm.Token
