import Clvm.Compiler.Quote
import Clvm.Proofs.Form
import Clvm.Proofs.Pattern

/-!
# Lowering quotations

`Lowers` says what lowering a tree gives, and `Meets` what the walk over it comes to. A tree has a lowered form unless the walk
meets a quotation without exactly one argument. In a lowered form nothing is left to lower, so lowering it again changes
nothing.
-/

namespace Clvm.Compiler
open Machine

/-- No pair starts with the word `quote`. -/
def QuoteFree (t : SExp) : Prop := ∀ tail, .pair (.atom Word.quote) tail ∉ Pattern.subtrees t

inductive Lowers : SExp → SExp → Prop where
  | atom (b : Bytes) : Lowers (.atom b) (.atom b)
  | quotation {x u : SExp} (h : Lowers x u) : Lowers (.ofList [.atom Word.quote, x]) (Form.quote u)
  | pair {x y u v : SExp} (hhead : x ≠ .atom Word.quote) (hx : Lowers x u) (hy : Lowers y v) : Lowers (.pair x y) (.pair u v)

/-- What a walk comes to that goes on in the argument of a quotation, and in both parts of any other pair. -/
inductive Meets : SExp → SExp → Prop where
  | here (t : SExp) : Meets t t
  | argument {x t : SExp} (h : Meets x t) : Meets (.ofList [.atom Word.quote, x]) t
  | first {x y t : SExp} (hhead : x ≠ .atom Word.quote) (h : Meets x t) : Meets (.pair x y) t
  | rest {x y t : SExp} (hhead : x ≠ .atom Word.quote) (h : Meets y t) : Meets (.pair x y) t

/-- The walk comes to a quotation that has not exactly one argument. -/
def MeetsMalformed (t : SExp) : Prop := ∃ tail, Meets t (.pair (.atom Word.quote) tail) ∧ ∀ x, tail ≠ .ofList [x]

/-! ### Trees without quotations -/

theorem quoteFree_atom (b : Bytes) : QuoteFree (.atom b) := by simp [QuoteFree, Pattern.subtrees]

theorem quoteFree_pair {x y : SExp} :
    QuoteFree (.pair x y) ↔ x ≠ .atom Word.quote ∧ QuoteFree x ∧ QuoteFree y := by
  simp only [QuoteFree, Pattern.subtrees, List.mem_cons, List.mem_append, SExp.pair.injEq, not_or, forall_and]
  refine and_congr_left fun _ => ⟨fun h hx => h y ⟨hx.symm, rfl⟩, fun h tail htail => h htail.1.symm⟩

theorem quoteFree_of_not_mem {t : SExp} (h : Word.quote ∉ t.leaves) : QuoteFree t := by
  induction t with
  | atom b => exact quoteFree_atom b
  | pair x y ihx ihy =>
    simp only [SExp.leaves, List.mem_append, not_or] at h
    refine quoteFree_pair.mpr ⟨?_, ihx h.1, ihy h.2⟩
    rintro rfl
    exact h.1 (List.mem_singleton_self _)

theorem lowers_self {t : SExp} (h : QuoteFree t) : Lowers t t := by
  induction t with
  | atom b => exact .atom b
  | pair x y ihx ihy =>
    obtain ⟨hhead, hx, hy⟩ := quoteFree_pair.mp h
    exact .pair hhead (ihx hx) (ihy hy)

theorem Lowers.eq_atom {t : SExp} {b : Bytes} (h : Lowers t (.atom b)) : t = .atom b := by
  cases h
  rfl

theorem Lowers.quoteFree {t u : SExp} (h : Lowers t u) : QuoteFree u := by
  induction h with
  | atom b => exact quoteFree_atom b
  | quotation _ ih => exact quoteFree_pair.mpr ⟨by decide, quoteFree_atom _, ih⟩
  | pair hhead hx _ ihx ihy =>
    -- a pair never becomes an atom, so the head is not the word unless it was before
    refine quoteFree_pair.mpr ⟨?_, ihx, ihy⟩
    rintro rfl
    exact hhead hx.eq_atom

/-! ### What lowering computes -/

theorem lowers_of_lowerQuote {t u : SExp} (h : lowerQuote t = .ok u) : Lowers t u := by
  fun_induction lowerQuote t generalizing u with
  | case1 b =>
    cases h
    exact .atom b
  | case2 | case4 => cases h
  | case3 x ih =>
    obtain ⟨v, hv, hu⟩ := bind_eq_ok.mp h
    cases hu
    exact .quotation (ih hv)
  | case5 x y hhead ihx ihy =>
    obtain ⟨v, hv, h⟩ := bind_eq_ok.mp h
    obtain ⟨w, hw, hu⟩ := bind_eq_ok.mp h
    cases hu
    exact .pair hhead (ihx hv) (ihy hw)

theorem meetsMalformed_of_error {t : SExp} {e : Error} (h : lowerQuote t = .error e) : MeetsMalformed t := by
  fun_induction lowerQuote t with
  | case1 b => cases h
  | case2 b => exact ⟨.atom b, .here _, by rintro x ⟨⟩⟩
  | case3 x ih =>
    rcases bind_eq_error.mp h with h | ⟨v, -, hv⟩
    · obtain ⟨tail, hmeets, htail⟩ := ih h
      exact ⟨tail, .argument hmeets, htail⟩
    · cases hv
  | case4 x rest hrest =>
    refine ⟨.pair x rest, .here _, ?_⟩
    rintro y heq
    cases heq
    exact hrest rfl
  | case5 x y hhead ihx ihy =>
    rcases bind_eq_error.mp h with h | ⟨v, -, h⟩
    · obtain ⟨tail, hmeets, htail⟩ := ihx h
      exact ⟨tail, .first hhead hmeets, htail⟩
    · rcases bind_eq_error.mp h with h | ⟨w, -, h⟩
      · obtain ⟨tail, hmeets, htail⟩ := ihy h
        exact ⟨tail, .rest hhead hmeets, htail⟩
      · cases h

theorem Lowers.not_meetsMalformed {t u : SExp} (h : Lowers t u) : ¬MeetsMalformed t := by
  rintro ⟨tail, hmeets, htail⟩
  induction h with
  | atom b => cases hmeets
  | quotation _ ih =>
    cases hmeets with
    | here => exact htail _ rfl
    | argument h => exact ih h
    | first hhead _ => exact hhead rfl
    | rest hhead _ => exact hhead rfl
  | pair hhead _ _ ihx ihy =>
    cases hmeets with
    | here => exact hhead rfl
    | argument h => exact hhead rfl
    | first _ h => exact ihx h
    | rest _ h => exact ihy h

theorem lowerQuote_pair {x y u v : SExp} (hhead : x ≠ .atom Word.quote) (hx : lowerQuote x = .ok u)
    (hy : lowerQuote y = .ok v) : lowerQuote (.pair x y) = .ok (.pair u v) := by
  unfold lowerQuote
  rw [if_neg hhead, hx, hy]
  rfl

theorem lowerQuote_of_lowers {t u : SExp} (h : Lowers t u) : lowerQuote t = .ok u := by
  induction h with
  | atom b => rfl
  | @quotation x u _ ih =>
    have hquote : lowerQuote (.ofList [.atom Word.quote, x]) = lowerQuote x >>= fun v => pure (Form.quote v) := rfl
    rw [hquote, ih]
    rfl
  | pair hhead _ _ ihx ihy => exact lowerQuote_pair hhead ihx ihy

/-- A tree without the word `quote` is kept as it is. -/
theorem lowerQuote_of_not_mem {t : SExp} (h : Word.quote ∉ t.leaves) : lowerQuote t = .ok t :=
  lowerQuote_of_lowers (lowers_self (quoteFree_of_not_mem h))

/-- Lowering leaves no quotation in a tree, and changes nothing where there is none; so it changes nothing when it is done
again. It fails if and only if its walk comes to a quotation that has not exactly one argument. -/
theorem lowerQuote_normalises (t : SExp) :
    (∀ u, lowerQuote t = .ok u → Lowers t u ∧ QuoteFree u ∧ lowerQuote u = .ok u ∧ (QuoteFree t → u = t)) ∧
    ((∃ e, lowerQuote t = .error e) ↔ MeetsMalformed t) := by
  refine ⟨fun u hu => ?_, ?_, fun hmeets => ?_⟩
  · have hlowers := lowers_of_lowerQuote hu
    refine ⟨hlowers, hlowers.quoteFree, lowerQuote_of_lowers (lowers_self hlowers.quoteFree), fun hfree => ?_⟩
    have hself := lowerQuote_of_lowers (lowers_self hfree)
    exact Except.ok.inj (hu.symm.trans hself)
  · rintro ⟨e, he⟩
    exact meetsMalformed_of_error he
  · cases hlower : lowerQuote t with
    | error e => exact ⟨e, rfl⟩
    | ok u => exact absurd hmeets (lowers_of_lowerQuote hlower).not_meetsMalformed

/-- The tree `(a (quote (quote b)) quote quote)` has a quotation in another and one at its end, of the word itself; the list
`(a (quote b c))` has one with two arguments. -/
theorem lowerQuote_normalises_tail :
    let a := SExp.atom [97]
    let b := SExp.atom [98]
    let quotation := fun x => SExp.ofList [.atom Word.quote, x]
    let t := SExp.pair a (.pair (quotation (quotation b)) (quotation (.atom Word.quote)))
    let u := SExp.pair a (.pair (Form.quote (Form.quote b)) (Form.quote (.atom Word.quote)))
    let malformed := SExp.ofList [a, .ofList [.atom Word.quote, b, .atom [99]]]
    lowerQuote t = .ok u ∧ QuoteFree u ∧ lowerQuote u = .ok u ∧ MeetsMalformed malformed ∧
      ∃ e, lowerQuote malformed = .error e := by
  intro a b quotation t u malformed
  have ht : lowerQuote t = .ok u := rfl
  have hmeets : MeetsMalformed malformed :=
    ⟨_, .rest (by decide) (.first (by decide) (.here _)), by rintro x ⟨⟩⟩
  obtain ⟨-, hfree, hagain, -⟩ := (lowerQuote_normalises t).1 u ht
  exact ⟨ht, hfree, hagain, hmeets, (lowerQuote_normalises malformed).2.mpr hmeets⟩

end Clvm.Compiler
