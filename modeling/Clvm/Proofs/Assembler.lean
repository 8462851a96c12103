import Clvm.Proofs.Node.Reader

/-!
# Written trees are read back

The text of a tree assembles to the tree, whatever atoms it has and however its lists end. Operators may be written
by their keywords, as data, or some this way and some that: a keyword is only ever written where its atom is meant,
and a number, quoted text or bytes never look like a keyword. The text may also stand in a larger one, where it keeps its
bounds.
-/

namespace Clvm.Node
open Token

theorem assembles_cons {t u : SExp} (n m : SExp) (offset : Int) (hn : Assembles t n) (hm : Assembles u m) :
    Assembles (.pair t u) (cons n m (some offset)) := assemble_cons hn hm offset

/-- A text that stands for a tree as an item of a list, and leaves no quote open. -/
structure IsPart (t : SExp) (w : List Char) : Prop where
  reads : Reads w (Assembles t)
  seals : Seals w

/-- A text that stands for the rest of a list after an item, and leaves no quote open. -/
structure IsTail (t : SExp) (w : List Char) : Prop where
  closes : Closes w (Assembles t)
  seals : Seals w

section
variable {t u : SExp} {v w : List Char}

theorem isPart_leaf (h : IsLeaf w (Assembles t)) : IsPart t w := ⟨h.reads_word, h.word.seals⟩

theorem isPart_nil : IsPart .nil "()".toList where
  reads := reads_nil (assemble_located (by decide) (by decide) · _)
  seals := seals_cons (.inr rfl) (seals_cons (.inr rfl) seals_nil)

theorem isTail_nil : IsTail .nil [')'] where
  closes := closes_nil (assemble_located (by decide) (by decide) · _)
  seals := seals_cons (.inr rfl) seals_nil

theorem isTail_dot (h : IsPart t w) : IsTail t (" . ".toList ++ w ++ [')']) where
  closes := closes_dot (h.reads.mono fun _ => Open.IsDotted.accepts)
  seals := by
    have hspace : Seals (" . ".toList ++ w) :=
      seals_cons (.inl (by decide)) (seals_cons (.inr rfl) (seals_cons (.inl (by decide)) h.seals))
    exact hspace.append isTail_nil.seals endsWord_close

theorem isTail_cons (hv : IsPart t v) (hw : IsTail u w) : IsTail (.pair t u) (' ' :: v ++ w) where
  closes := closes_cons hv.reads hw.closes assembles_cons
  seals := seals_cons (.inl (by decide)) (hv.seals.append hw.seals hw.closes.ends)

theorem isPart_list (hv : IsPart t v) (hw : IsTail u w) : IsPart (.pair t u) ('(' :: v ++ w) where
  reads := reads_list (hv.reads.mono fun _ => Open.IsFresh.accepts) hw.closes assembles_cons
  seals := seals_cons (.inr rfl) (hv.seals.append hw.seals hw.closes.ends)

end

/-! ### Trees as parts -/

theorem isPart_atomText (b : Bytes) : IsPart (.atom b) (SExp.atomText b) := by
  cases b with
  | nil => exact isPart_nil
  | cons x b => exact isPart_leaf (isLeaf_atomText (List.cons_ne_nil x b))

section
variable {names : SExp.Names} (hnames : ∀ b name, names b = some name → SExp.keywordNames b = some name)
include hnames

theorem isPart_operatorText (b : Bytes) : IsPart (.atom b) (SExp.operatorText names b) := by
  cases b with
  | nil =>
    rw [operatorText_nil hnames]
    exact isPart_nil
  | cons x b => exact isPart_leaf (isLeaf_operatorText hnames (List.cons_ne_nil x b))

theorem isPart_and_isTail (t : SExp) : IsPart t (SExp.operatorPart names t) ∧ IsTail t (SExp.tailText names t) := by
  induction t with
  | atom b =>
    refine ⟨by rw [SExp.operatorPart]; exact isPart_operatorText hnames b, ?_⟩
    cases b with
    | nil => exact isTail_nil
    | cons x b => exact isTail_dot (isPart_atomText (x :: b))
  | pair x y ihx ihy =>
    refine ⟨by rw [SExp.operatorPart]; exact isPart_list ihx.1 ihy.2, ?_⟩
    -- an item that is an atom is written as data, one that is a list starts with an operator
    cases x with
    | atom b => rw [SExp.tailText]; exact isTail_cons (isPart_atomText b) ihy.2
    | pair x x' => rw [SExp.tailText]; exact isTail_cons ihx.1 ihy.2

/-- The source of a tree may stand wherever an item may. -/
theorem isPart_toSourceWith (t : SExp) : IsPart t (SExp.toSourceWith names t) := by
  cases t with
  | atom b => exact isPart_atomText b
  | pair x y => exact (isPart_and_isTail hnames (.pair x y)).1

theorem read_toSourceWith (t : SExp) : ∃ n, read (SExp.toSourceWith names t) = .ok n ∧ assemble n = .ok t := by
  match t with
  | .atom [] => exact ⟨located .null (1 : Nat) .nil, rfl, assemble_located (by decide) (by decide) _ _⟩
  | .atom (x :: b) => exact read_leaf (isLeaf_atomText (List.cons_ne_nil x b))
  | .pair x y =>
    rw [SExp.toSourceWith, SExp.operatorPart]
    obtain ⟨hx, -⟩ := isPart_and_isTail hnames x
    obtain ⟨-, hy⟩ := isPart_and_isTail hnames y
    exact read_list (hx.reads.mono fun _ => Open.IsFresh.accepts) hy.closes assembles_cons

end

end Clvm.Node

namespace Clvm.SExp

/-- The text of a tree is assembled to the tree, if operators are written by their keywords or not by name. -/
theorem ofSource_toSourceWith {names : Names} (hnames : ∀ b name, names b = some name → keywordNames b = some name)
    (t : SExp) : ofSource (toSourceWith names t) = .ok t := by
  obtain ⟨n, hread, hn⟩ := Node.read_toSourceWith hnames t
  rw [ofSource, hread]
  exact hn

/-- A list with an operator as operator and as data, text that looks like source, a number that is not the shortest
and a dot. -/
def sample : SExp :=
  .pair (.atom [16]) (.pair (.pair (.atom [1]) (.atom [16]))
    (.pair (.atom [97, 59, 40, 39, 41]) (.pair (.atom [0, 16]) (.atom [255]))))

theorem ofSource_toSourceWith_sample :
    ((∀ b name, keywordNames b = some name → keywordNames b = some name) ∧
      toSourceWith keywordNames sample = "(+ (q . 16) \"a;(')\" 0x0010 . -1)".toList ∧
      ofSource (toSourceWith keywordNames sample) = .ok sample) ∧
    ((∀ b name, noNames b = some name → keywordNames b = some name) ∧
      toSourceWith noNames sample = "(16 (1 . 16) \"a;(')\" 0x0010 . -1)".toList ∧
      ofSource (toSourceWith noNames sample) = .ok sample) :=
  have hnone : ∀ b name, noNames b = some name → keywordNames b = some name := by rintro b name ⟨⟩
  ⟨⟨fun _ _ h => h, by decide +kernel, ofSource_toSourceWith (fun _ _ h => h) sample⟩,
    ⟨hnone, by decide +kernel, ofSource_toSourceWith hnone sample⟩⟩

end Clvm.SExp
