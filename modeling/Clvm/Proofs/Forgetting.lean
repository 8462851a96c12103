import Clvm.Proofs.Pattern
import Mathlib.Data.List.DropRight

/-!
# Literal forms forget what is known

A match meets the names and the literal forms of its pattern from left to right. A name adds to the bindings, or checks
them; a literal form starts them anew. So a match keeps what is known, and binds all occurrences of a name to one tree,
just as long as its pattern has no literal form; otherwise only the names after the last of them are bound.
-/

namespace Clvm.Pattern
open Machine

/-- What a match meets: a name, with the tree that stands there, or a literal form. -/
inductive Encounter where
  | name (key : String) (t : SExp)
  | literal
deriving DecidableEq

/-- What a match meets at a mark, if the tree may stand there. -/
def encounterAt (mark : Bytes) (right t : SExp) : Option Encounter :=
  if mark = atomMark ∧ t.isPair = true then none
  else if right = .atom mark then if t = .atom mark then some .literal else none
  else do return .name (String.ofList (← Text.Utf8.decode? (← right.bytes?))) t

/-- What a match of the tree meets from left to right, unless the pattern has another shape or a name that is none. -/
def encounters : SExp → SExp → Option (List Encounter)
  | .atom p, .atom b => if p = b then some [] else none
  | .atom _, .pair _ _ => none
  | .pair left right, t =>
    if left = .atom atomMark then (encounterAt atomMark right t).map ([·])
    else if left = .atom treeMark then (encounterAt treeMark right t).map ([·])
    else
      match t with
      | .atom _ => none
      | .pair x y => do return (← encounters left x) ++ (← encounters right y)

/-- What an encounter makes of the bindings. -/
def meet (known : Bindings) : Encounter → Option Bindings
  | .name key t => bindKey known key t
  | .literal => some []

/-- The pattern has `($ . $)` or `(: . :)` in it. -/
def HasLiteral (p : SExp) : Prop := ∃ mark, IsMark mark ∧ .pair (.atom mark) (.atom mark) ∈ subtrees p

/-- The encounters after the last literal form. -/
def sinceLiteral (met : List Encounter) : List Encounter := met.rtakeWhile (· ≠ .literal)

section Encounters
variable {known found : Bindings} {left right p t : SExp} {met : List Encounter}

theorem encounters_mark {mark : Bytes} (hmark : IsMark mark) (right t : SExp) :
    encounters (.pair (.atom mark) right) t = (encounterAt mark right t).map ([·]) := by
  rcases hmark with rfl | rfl
  · simp [encounters]
  · have hdiff : treeMark ≠ atomMark := by decide
    simp [encounters, hdiff]

theorem encounters_pair (hatom : left ≠ .atom atomMark) (htree : left ≠ .atom treeMark) (x y : SExp) :
    encounters (.pair left right) (.pair x y) =
      encounters left x >>= fun xs => encounters right y >>= fun ys => some (xs ++ ys) := by
  simp only [encounters, if_neg hatom, if_neg htree]
  rfl

theorem encounters_pair_atom (hatom : left ≠ .atom atomMark) (htree : left ≠ .atom treeMark) (b : Bytes) :
    encounters (.pair left right) (.atom b) = none := by
  simp only [encounters, if_neg hatom, if_neg htree]

theorem matchTree_mark {mark : Bytes} (hmark : IsMark mark) (known : Bindings) (right t : SExp) :
    matchTree known (.pair (.atom mark) right) t =
      if mark = atomMark ∧ t.isPair = true then .ok none
      else if right = .atom mark then .ok (if t = .atom mark then some [] else none)
      else bindName known right t := by
  rcases hmark with rfl | rfl
  · cases t <;> simp [matchTree, SExp.isPair]
  · have hdiff : treeMark ≠ atomMark := by decide
    simp [matchTree, hdiff]

theorem bindName_eq_some_iff :
    bindName known right t = .ok (some found) ↔
      ∃ name text, right = .atom name ∧ Text.Utf8.decode? name = some text ∧
        bindKey known (String.ofList text) t = some found := by
  cases right with
  | pair x y => simp [bindName]
  | atom name =>
    cases htext : Text.Utf8.decode? name with
    | none => simp [bindName, htext]
    | some text => simp [bindName_of_text htext, htext]

/-- A mark is met alone: as a literal form, or with a name. -/
theorem encounterAt_cases {mark : Bytes} {e : Encounter} (h : encounterAt mark right t = some e) :
    (right = .atom mark ∧ t = .atom mark ∧ e = .literal) ∨
      ∃ name text, right = .atom name ∧ name ≠ mark ∧ Text.Utf8.decode? name = some text ∧
        e = .name (String.ofList text) t := by
  unfold encounterAt at h
  split at h
  · cases h
  · split at h
    · rename_i hright
      simp only [Option.ite_none_right_eq_some, Option.some.injEq] at h
      exact .inl ⟨hright, h.1, h.2.symm⟩
    · rename_i hright
      cases right with
      | pair x y => cases h
      | atom name =>
        simp only [SExp.bytes?, Option.pure_def, Option.bind_eq_bind, Option.bind_some, Option.bind_eq_some_iff,
          Option.some.injEq] at h
        obtain ⟨text, htext, rfl⟩ := h
        exact .inr ⟨name, text, rfl, fun heq => hright (congrArg _ heq), htext, rfl⟩

theorem matchTree_mark_iff {mark : Bytes} (hmark : IsMark mark) :
    matchTree known (.pair (.atom mark) right) t = .ok (some found) ↔
      ∃ e, encounterAt mark right t = some e ∧ meet known e = some found := by
  rw [matchTree_mark hmark, encounterAt]
  by_cases hpair : mark = atomMark ∧ t.isPair = true
  · simp [hpair]
  · rw [if_neg hpair, if_neg hpair]
    by_cases hright : right = .atom mark
    · by_cases ht : t = .atom mark <;> simp [hright, ht, meet]
    · rw [if_neg hright, if_neg hright, bindName_eq_some_iff]
      cases right with
      | pair x y => simp [SExp.bytes?]
      | atom name =>
        cases htext : Text.Utf8.decode? name <;> simp [SExp.bytes?, htext, meet]

/-- A match goes through what it meets, from left to right. -/
theorem matchTree_eq_some_iff :
    matchTree known p t = .ok (some found) ↔ ∃ met, encounters p t = some met ∧ met.foldlM meet known = some found := by
  induction p generalizing known t found with
  | atom b =>
    cases t with
    | pair x y => simp [matchTree, encounters]
    | atom b' => by_cases heq : b = b' <;> simp [matchTree, encounters, heq]
  | pair left right ihl ihr =>
    by_cases hleft : ∃ mark, IsMark mark ∧ left = .atom mark
    · obtain ⟨mark, hmark, rfl⟩ := hleft
      rw [matchTree_mark_iff hmark, encounters_mark hmark]
      simp [Option.map_eq_some_iff]
    · have hatom : left ≠ .atom atomMark := fun heq => hleft ⟨_, .inl rfl, heq⟩
      have htree : left ≠ .atom treeMark := fun heq => hleft ⟨_, .inr rfl, heq⟩
      cases t with
      | atom b => simp [matchTree_pair_atom hatom htree, encounters_pair_atom hatom htree]
      | pair x y =>
        rw [matchTree_pair hatom htree, encounters_pair hatom htree, bind_eq_ok]
        constructor
        · rintro ⟨middle?, hmiddle, h⟩
          cases middle? with
          | none => cases h
          | some middle =>
            obtain ⟨xs, hxs, hmiddle⟩ := ihl.mp hmiddle
            obtain ⟨ys, hys, hfound⟩ := ihr.mp h
            exact ⟨xs ++ ys, by simp [hxs, hys], by simp [List.foldlM_append, hmiddle, hfound]⟩
        · rintro ⟨met, hmet, h⟩
          simp only [Option.bind_eq_bind, Option.bind_eq_some_iff, Option.some.injEq] at hmet
          obtain ⟨xs, hxs, ys, hys, rfl⟩ := hmet
          rw [List.foldlM_append, Option.bind_eq_bind, Option.bind_eq_some_iff] at h
          obtain ⟨middle, hmiddle, hfound⟩ := h
          exact ⟨some middle, ihl.mpr ⟨xs, hxs, hmiddle⟩, ihr.mpr ⟨ys, hys, hfound⟩⟩

end Encounters

/-! ### What the encounters leave bound -/

section Bound
variable {known found : Bindings} {p t : SExp} {met : List Encounter}

theorem sinceLiteral_snoc_name (met : List Encounter) (key : String) (v : SExp) :
    sinceLiteral (met ++ [.name key v]) = sinceLiteral met ++ [.name key v] :=
  List.rtakeWhile_concat_pos _ _ _ rfl

theorem sinceLiteral_snoc_literal (met : List Encounter) : sinceLiteral (met ++ [.literal]) = [] :=
  List.rtakeWhile_concat_neg _ _ _ nofun

theorem sinceLiteral_eq_self (h : .literal ∉ met) : sinceLiteral met = met := by
  refine List.rtakeWhile_eq_self_iff.mpr fun e he => ?_
  simpa using ne_of_mem_of_not_mem he h

/-- What is known counts until a literal form is met, and a name until the next one. -/
theorem lookup_of_foldlM_meet (h : met.foldlM meet known = some found) (name : String) (v : SExp) :
    found.lookup name = some v ↔ (.literal ∉ met ∧ known.lookup name = some v) ∨ .name name v ∈ sinceLiteral met := by
  induction met using List.reverseRecOn generalizing found with
  | nil =>
    cases h
    simp [sinceLiteral]
  | append_singleton met e ih =>
    simp only [List.foldlM_append, Option.bind_eq_bind, Option.bind_eq_some_iff, List.foldlM_cons, List.foldlM_nil,
      Option.pure_def, Option.some.injEq, exists_eq_right] at h
    obtain ⟨middle, hmiddle, h⟩ := h
    cases e with
    | literal =>
      cases h
      simp [sinceLiteral_snoc_literal]
    | name key u =>
      have hmid := ih hmiddle
      have hagree : middle.lookup key = some v → v = u := bindKey_agrees h
      rw [lookup_of_bindKey h, sinceLiteral_snoc_name]
      by_cases hname : name = key
      · subst hname
        simp only [↓reduceIte, Option.some.injEq, List.mem_append, List.mem_singleton, Encounter.name.injEq, true_and,
          reduceCtorEq, or_false, ← or_assoc, ← hmid]
        exact ⟨fun heq => .inr heq.symm, fun hor => (hor.elim hagree id).symm⟩
      · simp [hname, hmid]

theorem mem_subtrees_of_descend {turns : List Bool} {s : SExp} (h : descend turns p = .ok s) : s ∈ subtrees p := by
  induction p generalizing turns with
  | atom b =>
    cases turns with
    | nil =>
      cases h
      exact List.mem_singleton_self _
    | cons side turns => cases h
  | pair left right ihl ihr =>
    cases turns with
    | nil =>
      cases h
      exact List.mem_cons_self
    | cons side turns =>
      cases side with
      | false => exact List.mem_cons_of_mem _ (List.mem_append_left _ (ihl h))
      | true => exact List.mem_cons_of_mem _ (List.mem_append_right _ (ihr h))

theorem encounters_atom {b : Bytes} (h : encounters (.atom b) t = some met) : met = [] := by
  cases t with
  | pair x y => cases h
  | atom b' =>
    simp only [encounters, Option.ite_none_right_eq_some, Option.some.injEq] at h
    exact h.2.symm

/-- A pair is met as a mark, or part by part. -/
theorem encounters_pair_cases {left right : SExp} (h : encounters (.pair left right) t = some met) :
    (∃ mark e, IsMark mark ∧ left = .atom mark ∧ encounterAt mark right t = some e ∧ met = [e]) ∨
      ∃ x y xs ys, (∀ mark, IsMark mark → left ≠ .atom mark) ∧ t = .pair x y ∧ encounters left x = some xs ∧
        encounters right y = some ys ∧ met = xs ++ ys := by
  by_cases hleft : ∃ mark, IsMark mark ∧ left = .atom mark
  · obtain ⟨mark, hmark, rfl⟩ := hleft
    rw [encounters_mark hmark, Option.map_eq_some_iff] at h
    obtain ⟨e, he, rfl⟩ := h
    exact .inl ⟨mark, e, hmark, rfl, he, rfl⟩
  · have hplain : ∀ mark, IsMark mark → left ≠ .atom mark := fun mark hmark heq => hleft ⟨mark, hmark, heq⟩
    cases t with
    | atom b =>
      rw [encounters_pair_atom (hplain _ (.inl rfl)) (hplain _ (.inr rfl))] at h
      cases h
    | pair x y =>
      rw [encounters_pair (hplain _ (.inl rfl)) (hplain _ (.inr rfl))] at h
      simp only [Option.bind_eq_bind, Option.bind_eq_some_iff, Option.some.injEq] at h
      obtain ⟨xs, hxs, ys, hys, rfl⟩ := h
      exact .inr ⟨x, y, xs, ys, hplain, rfl, hxs, hys, rfl⟩

theorem hasLiteral_pair {left right : SExp} (hplain : ∀ mark, IsMark mark → left ≠ .atom mark) :
    HasLiteral (.pair left right) ↔ HasLiteral left ∨ HasLiteral right := by
  simp only [HasLiteral, subtrees, List.mem_cons, List.mem_append, SExp.pair.injEq, ← exists_or, ← and_or_left]
  refine exists_congr fun mark => and_congr_right fun hmark => or_iff_right ?_
  rintro ⟨rfl, -⟩
  exact hplain mark hmark rfl

theorem hasLiteral_mark {mark name : Bytes} (hmark : IsMark mark) :
    HasLiteral (.pair (.atom mark) (.atom name)) ↔ name = mark := by
  simp only [HasLiteral, subtrees, List.mem_cons, List.mem_append, List.not_mem_nil, SExp.pair.injEq, SExp.atom.injEq,
    reduceCtorEq, or_false]
  constructor
  · rintro ⟨_, -, rfl, rfl⟩
    rfl
  · rintro rfl
    exact ⟨name, hmark, rfl, rfl⟩

/-- A match meets a literal form just where the pattern has one. -/
theorem literal_mem_iff (h : encounters p t = some met) : .literal ∈ met ↔ HasLiteral p := by
  induction p generalizing t met with
  | atom b => simp [encounters_atom h, HasLiteral, subtrees]
  | pair left right ihl ihr =>
    rcases encounters_pair_cases h with ⟨mark, e, hmark, rfl, he, rfl⟩ | ⟨x, y, xs, ys, hplain, rfl, hxs, hys, rfl⟩
    · rcases encounterAt_cases he with ⟨rfl, -, rfl⟩ | ⟨name, text, rfl, hne, -, rfl⟩
      · simp [hasLiteral_mark hmark]
      · simp [hasLiteral_mark hmark, hne]
    · rw [List.mem_append, ihl hxs, ihr hys, hasLiteral_pair hplain]

/-- Every name of the pattern is met with the tree that stands in its place. -/
theorem name_mem_of_descend (h : encounters p t = some met) {turns : List Bool} {mark name : Bytes} {text : List Char}
    (hplace : descend turns p = .ok (.pair (.atom mark) (.atom name))) (hmark : IsMark mark) (hne : name ≠ mark)
    (htext : Text.Utf8.decode? name = some text) :
    ∃ v, descend turns t = .ok v ∧ .name (String.ofList text) v ∈ met := by
  induction p generalizing t met turns with
  | atom b => cases turns <;> cases hplace
  | pair left right ihl ihr =>
    rcases encounters_pair_cases h with ⟨mark', e, hmark', rfl, he, rfl⟩ | ⟨x, y, xs, ys, hplain, rfl, hxs, hys, rfl⟩
    · have hatom : ∃ b, right = .atom b := by
        rcases encounterAt_cases he with ⟨rfl, -⟩ | ⟨b, -, rfl, -⟩ <;> exact ⟨_, rfl⟩
      obtain ⟨b, rfl⟩ := hatom
      cases turns with
      | nil =>
        cases hplace
        rcases encounterAt_cases he with ⟨heq, -⟩ | ⟨name', text', heq, -, htext', rfl⟩
        · exact absurd (SExp.atom.inj heq) hne
        · cases heq
          cases htext.symm.trans htext'
          exact ⟨t, rfl, List.mem_singleton_self _⟩
      | cons right turns => cases right <;> cases turns <;> cases hplace
    · cases turns with
      | nil =>
        cases hplace
        exact absurd rfl (hplain mark hmark)
      | cons side turns =>
        cases side with
        | false =>
          obtain ⟨v, hv, hmem⟩ := ihl hxs hplace
          exact ⟨v, hv, List.mem_append_left _ hmem⟩
        | true =>
          obtain ⟨v, hv, hmem⟩ := ihr hys hplace
          exact ⟨v, hv, List.mem_append_right _ hmem⟩

end Bound

/-- A match binds what is known and the names it meets, each to the tree in its place, up to literal forms. If the pattern
has none, everything known is kept, and every occurrence of a name is bound to one tree. If it has one, what is known is
lost, and so are the names before the last one: a binding is left just where the name is met after it. -/
theorem matchTree_keeps_up_to_literal {known found : Bindings} {p t : SExp}
    (h : matchTree known p t = .ok (some found)) :
    ∃ met, encounters p t = some met ∧
      (¬HasLiteral p →
        (∀ name v, known.lookup name = some v → found.lookup name = some v) ∧
        ∀ turns mark name text, descend turns p = .ok (.pair (.atom mark) (.atom name)) → IsMark mark →
          Text.Utf8.decode? name = some text → ∃ v, descend turns t = .ok v ∧ found.lookup (String.ofList text) = some v) ∧
      (HasLiteral p → ∀ name v, found.lookup name = some v ↔ .name name v ∈ sinceLiteral met) := by
  obtain ⟨met, hmet, hfold⟩ := matchTree_eq_some_iff.mp h
  have hlookup := lookup_of_foldlM_meet hfold
  have hliteral := literal_mem_iff hmet
  refine ⟨met, hmet, fun hnone => ⟨fun name v hv => ?_, ?_⟩, fun hsome name v => ?_⟩
  · exact (hlookup name v).mpr (.inl ⟨mt hliteral.mp hnone, hv⟩)
  · intro turns mark name text hplace hmark htext
    have hne : name ≠ mark := by
      rintro rfl
      exact hnone ⟨name, hmark, mem_subtrees_of_descend hplace⟩
    obtain ⟨v, hv, hmem⟩ := name_mem_of_descend hmet hplace hmark hne htext
    refine ⟨v, hv, (hlookup _ v).mpr (.inr ?_)⟩
    rwa [sinceLiteral_eq_self (mt hliteral.mp hnone)]
  · rw [hlookup]
    simp [hliteral, hsome]

/-- With `b` known, `((: . a) x $ . a)` matches `(7 x . 7)` and keeps `b`. -/
theorem matchTree_keeps_up_to_literal_none :
    let p : SExp := .pair (.pair (.atom treeMark) (.atom [0x61]))
      (.pair (.atom [0x78]) (.pair (.atom atomMark) (.atom [0x61])))
    let t : SExp := .pair (.atom [7]) (.pair (.atom [0x78]) (.atom [7]))
    let known : Bindings := [("b", .nil)]
    ¬HasLiteral p ∧ ∃ found, matchTree known p t = .ok (some found) ∧ found.lookup "b" = some .nil ∧
      found.lookup "a" = some (.atom [7]) := by
  intro p t known
  have hmet : encounters p t = some [.name "a" (.atom [7]), .name "a" (.atom [7])] := rfl
  have hnone : ¬HasLiteral p := by simp [← literal_mem_iff hmet]
  have hmatch : matchTree known p t = .ok (some [("b", .nil), ("a", .atom [7])]) := rfl
  obtain ⟨-, -, hkept, -⟩ := matchTree_keeps_up_to_literal hmatch
  obtain ⟨hknown, hnames⟩ := hkept hnone
  obtain ⟨v, hv, ha⟩ := hnames [false] treeMark [0x61] ['a'] rfl (.inr rfl) rfl
  cases hv
  exact ⟨hnone, _, hmatch, hknown "b" .nil rfl, ha⟩

/-- A literal form between two occurrences of `a`: `((: . a) ($ . $) : . a)` matches `(1 $ . 2)`, although the two stand
against different trees, and `b` is known no more. -/
theorem matchTree_forgets_at_literal :
    let p : SExp := .pair (.pair (.atom treeMark) (.atom [0x61]))
      (.pair (.pair (.atom atomMark) (.atom atomMark)) (.pair (.atom treeMark) (.atom [0x61])))
    let t : SExp := .pair (.atom [1]) (.pair (.atom atomMark) (.atom [2]))
    let known : Bindings := [("b", .nil)]
    ∃ found, matchTree known p t = .ok (some found) ∧ known.lookup "b" = some .nil ∧ found.lookup "b" = none ∧
      descend [false] t = .ok (.atom [1]) ∧ descend [true, true] t = .ok (.atom [2]) ∧
      found.lookup "a" = some (.atom [2]) :=
  ⟨[("a", .atom [2])], rfl, rfl, rfl, rfl, rfl, rfl⟩

end Clvm.Pattern
