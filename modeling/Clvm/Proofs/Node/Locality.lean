import Clvm.Node.Reader
import Clvm.Proofs.Node.Token
import Mathlib.Tactic.SplitIfs

/-!
# Reading only the first expression

Text behind a text goes on its last token at most, and only if this is a run of plain characters. A list is read up to the
parenthesis that closes it, which is no such run. So reading the first expression does not depend on what comes after it.
-/

namespace Clvm.Token

/-! ### Tokens of a longer text -/

/-- The first tokens stand in front of the others, but for a last one that is a run of plain characters. -/
inductive GoesOn : List Token → List Token → Prop where
  | done (after : List Token) : GoesOn [] after
  | last {t : Token} {c : Char} {cs : List Char} (htext : t.text = c :: cs) (hc : startsPlain c = true)
      (after : List Token) : GoesOn [t] after
  | token (t : Token) {before after : List Token} (h : GoesOn before after) : GoesOn (t :: before) (t :: after)

theorem GoesOn.keeps {before after used rest : List Token} {t : Token} (h : GoesOn before after)
    (hbefore : before = used ++ t :: rest) (ht : ∀ c cs, t.text = c :: cs → startsPlain c = false) :
    ∃ rest', after = used ++ t :: rest' := by
  induction h generalizing used with
  | done after => simp at hbefore
  | last htext hc after =>
    rcases List.append_eq_singleton_iff.mp hbefore.symm with ⟨rfl, hlast⟩ | ⟨-, hnone⟩
    · obtain ⟨rfl, -⟩ := List.cons.inj hlast
      rw [ht _ _ htext] at hc
      cases hc
    · cases hnone
  | token u h ih =>
    cases used with
    | nil =>
      obtain ⟨rfl, -⟩ := List.cons.inj hbefore
      exact ⟨_, rfl⟩
    | cons v used =>
      obtain ⟨rfl, hused⟩ := List.cons.inj hbefore
      obtain ⟨rest', rfl⟩ := ih hused
      exact ⟨rest', rfl⟩

theorem GoesOn.append {before after : List Token} (h : GoesOn before after) (ts : List Token) :
    GoesOn (ts ++ before) (ts ++ after) := by
  induction ts with
  | nil => exact h
  | cons t ts ih => exact .token t ih

theorem scan_goesOn {s : Scan} (hs : s.Starts) (offset : Nat) (cs more : List Char) :
    GoesOn (scan s offset cs).tokens (scan s offset (cs ++ more)).tokens := by
  induction cs generalizing s offset with
  | nil =>
    cases s with
    | gap | comment | quoted => exact .done _
    | bare start text =>
      obtain ⟨c, cs, htext, hc, -⟩ := hs
      exact .last htext hc _
  | cons c cs ih =>
    obtain ⟨ended, s', -, hs', hscan⟩ := scan_cons hs offset c
    rw [List.cons_append, hscan, hscan, tokens_foldr_push, tokens_foldr_push]
    exact (ih hs' (offset + 1)).append ended

end Clvm.Token

namespace Clvm.Node
open Token

/-! ### Tokens that a list takes -/

theorem Open.text_of_move_close {o : Open} {t : Token} {tail : SExp} (h : o.move t = .ok (.close tail)) :
    t.text = [')'] := by
  rw [Open.move] at h
  split at h
  · split_ifs at h with hclose
    exact hclose
  · split_ifs at h <;> cases h
  · split_ifs at h with hclose <;> cases h
    exact hclose

/-- What a token does to the lists that are open, whatever comes after it: it is refused, it closes the outermost list, or it
leaves other lists open. -/
theorem readOpen_cons (o : Open) (outer : List Open) (t : Token) :
    (∃ e, ∀ atEnd ts, readOpen atEnd o outer (t :: ts) = .error e) ∨
    (t.text = [')'] ∧ ∃ n, ∀ atEnd ts, readOpen atEnd o outer (t :: ts) = .ok (n, ts)) ∨
    ∃ o' outer', ∀ atEnd ts, readOpen atEnd o outer (t :: ts) = readOpen atEnd o' outer' ts := by
  simp only [readOpen]
  cases hmove : o.move t with
  | error e => exact .inl ⟨e, fun _ _ => rfl⟩
  | ok m =>
    cases m with
    | close tail =>
      cases outer with
      | nil => exact .inr (.inl ⟨Open.text_of_move_close hmove, o.close tail, fun _ _ => rfl⟩)
      | cons p outer => exact .inr (.inr ⟨_, outer, fun _ _ => rfl⟩)
    | dot => exact .inr (.inr ⟨_, outer, fun _ _ => rfl⟩)
    | nest => exact .inr (.inr ⟨_, o :: outer, fun _ _ => rfl⟩)
    | leaf =>
      cases hleaf : readLeaf t with
      | error e => exact .inl ⟨e, fun _ _ => rfl⟩
      | ok n => exact .inr (.inr ⟨_, outer, fun _ _ => rfl⟩)

/-- A list is read up to a closing parenthesis, and gives the same node whatever comes after that. -/
theorem readOpen_used {atEnd : SyntaxFault} {o : Open} {outer : List Open} {ts rest : List Token} {n : SExp}
    (h : readOpen atEnd o outer ts = .ok (n, rest)) :
    ∃ used last, ts = used ++ last :: rest ∧ last.text = [')'] ∧
      ∀ atEnd' rest', readOpen atEnd' o outer (used ++ last :: rest') = .ok (n, rest') := by
  induction ts generalizing o outer with
  | nil => cases h
  | cons t ts ih =>
    rcases readOpen_cons o outer t with ⟨e, herror⟩ | ⟨htext, m, hclose⟩ | ⟨o', outer', hnext⟩
    · rw [herror] at h
      cases h
    · rw [hclose] at h
      cases h
      exact ⟨[], t, rfl, htext, hclose⟩
    · rw [hnext] at h
      obtain ⟨used, last, rfl, hlast, hread⟩ := ih h
      exact ⟨t :: used, last, rfl, hlast, fun atEnd' rest' => (hnext _ _).trans (hread atEnd' rest')⟩

/-! ### Texts -/

theorem readStream_open {s : Stream} {t : Token} {ts : List Token} (htokens : s.tokens = t :: ts) (hopen : t.text = ['(']) :
    readStream s = readOpen (s.fault.getD .missingClose) ⟨t.offset, [], none⟩ [] ts := by
  rw [readStream, htokens]
  simp only [if_pos hopen]

theorem readStream_leaf {s : Stream} {t : Token} {ts : List Token} (htokens : s.tokens = t :: ts) (hopen : t.text ≠ ['(']) :
    readStream s = (readLeaf t).map fun n => (n, ts) := by
  rw [readStream, htokens]
  simp only [if_neg hopen]
  cases readLeaf t <;> rfl

/-- The tokens that an expression is read from: a single one, or all from an opening parenthesis up to a closing one. Every
text that starts with them is read as the same node. -/
theorem readStream_used {s : Stream} {n : SExp} {rest : List Token} (h : readStream s = .ok (n, rest)) :
    ∃ used last, s.tokens = used ++ last :: rest ∧ (last.text = [')'] ∨ used = [] ∧ last.text ≠ ['(']) ∧
      ∀ (s' : Stream) (rest' : List Token), s'.tokens = used ++ last :: rest' → readStream s' = .ok (n, rest') := by
  cases htokens : s.tokens with
  | nil =>
    rw [readStream, htokens] at h
    cases h
  | cons t ts =>
    by_cases hopen : t.text = ['(']
    · rw [readStream_open htokens hopen] at h
      obtain ⟨used, last, rfl, hlast, hread⟩ := readOpen_used h
      exact ⟨t :: used, last, rfl, .inl hlast, fun s' rest' hs' => (readStream_open hs' hopen).trans (hread _ rest')⟩
    · rw [readStream_leaf htokens hopen] at h
      cases hleaf : readLeaf t with
      | error e =>
        rw [hleaf] at h
        cases h
      | ok m =>
        rw [hleaf] at h
        cases h
        refine ⟨[], t, rfl, .inr ⟨rfl, hopen⟩, fun s' rest' hs' => ?_⟩
        rw [readStream_leaf hs' hopen, hleaf]
        rfl

/-- The first expression of a text that starts with a list or with quoted text is read the same, whatever comes after the
text. -/
theorem read_append {source : List Char} {first : Token} (hfirst : (stream source).tokens.head? = some first)
    (hclosed : first.text = ['('] ∨ first.text.head?.any isQuote = true) {n : SExp} (hread : read source = .ok n)
    (more : List Char) : read (source ++ more) = .ok n := by
  cases hstream : readStream (stream source) with
  | error e =>
    rw [read, hstream] at hread
    cases hread
  | ok r =>
    rw [read, hstream] at hread
    cases hread
    obtain ⟨used, last, htokens, hlast, hagain⟩ := readStream_used hstream
    -- the last token that is used does not go on behind the text
    have hends : ∀ c cs, last.text = c :: cs → startsPlain c = false := by
      intro c cs htext
      rcases hlast with hclose | ⟨rfl, hopen⟩
      · rw [hclose] at htext
        obtain ⟨rfl, -⟩ := List.cons.inj htext
        decide
      · rw [htokens] at hfirst
        cases hfirst
        rcases hclosed with hlist | hquoted
        · exact absurd hlist hopen
        · rw [htext] at hquoted
          simp only [List.head?_cons, Option.any_some] at hquoted
          simp [startsPlain, hquoted]
    have hgoesOn : GoesOn (stream source).tokens (stream (source ++ more)).tokens :=
      scan_goesOn (s := .gap) trivial 0 source more
    obtain ⟨rest', hmore⟩ := hgoesOn.keeps htokens hends
    rw [read, hagain _ rest' hmore]
    rfl

/-- A list that ends in the symbol `)`, with a parenthesis in a comment before it, and behind it a quote that is never
closed; and quoted text with another behind it. -/
theorem read_append_open_quote :
    let list := "; (\n(a 'b' . ))".toList
    let tail := cons (located .singleQuote 7 (.atom [98])) (readSymbol [')'] 13) (some 7)
    let listNode := cons (readSymbol ['a'] 5) tail (some 5)
    let quoted := " '('".toList
    let quotedNode := located .singleQuote 1 (.atom [40])
    let more := "'0xg (".toList
    (stream list).tokens.head? = some ⟨['('], 4⟩ ∧ read list = .ok listNode ∧ (stream (list ++ more)).fault ≠ none ∧
    read (list ++ more) = .ok listNode ∧
    (stream quoted).tokens.head? = some ⟨"'('".toList, 1⟩ ∧ read quoted = .ok quotedNode ∧
    (stream (quoted ++ more)).fault ≠ none ∧ read (quoted ++ more) = .ok quotedNode := by
  intro list tail listNode quoted quotedNode more
  have hlist : (stream list).tokens.head? = some ⟨['('], 4⟩ := by decide +kernel
  have hquoted : (stream quoted).tokens.head? = some ⟨"'('".toList, 1⟩ := by decide +kernel
  have hlistRead : read list = .ok listNode := by rfl
  have hquotedRead : read quoted = .ok quotedNode := by rfl
  exact ⟨hlist, hlistRead, by decide +kernel, read_append hlist (.inl rfl) hlistRead more,
    hquoted, hquotedRead, by decide +kernel, read_append hquoted (.inr rfl) hquotedRead more⟩

end Clvm.Node
