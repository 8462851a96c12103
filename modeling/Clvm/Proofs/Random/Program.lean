import Clvm.Proofs.Assembler
import Clvm.Proofs.Numbering
import Clvm.Proofs.Random.Draw
import Clvm.Random.Program
import Clvm.Random.Twister

/-!
# Random programs are well formed

Whatever is drawn, a random program is one expression: it is read up to its end, and it assembles. The forms that an
expression can take are put together from few kinds of text, namely constants, calls and paths, so each of these is
shown once to be a text that may stand alone or inside another. A random tree is full, and a path that is drawn for its
depth leads to one of its leaves.
-/

namespace Clvm.Random
open Node Token

/-! ### Texts that are one expression -/

/-- A text that is one expression and nothing else: no quote stays open in it, all its tokens are read, and it assembles
to a tree. -/
structure IsWhole (text : List Char) (t : SExp) : Prop where
  closed : (stream text).fault = none
  consumed : ∃ n, readStream (stream text) = .ok (n, [])
  assembles : SExp.ofSource text = .ok t

/-- A text that stands between parentheses. -/
def IsParenthesised (text : List Char) : Prop := ∃ inner, text = '(' :: inner ++ [')']

/-- A text that is an expression wherever it stands: a word, or a list whose first item and the text after it are known. -/
inductive Stands : SExp → List Char → Prop where
  | word {b : Bytes} {w : List Char} (h : IsLeaf w (Assembles (.atom b))) : Stands (.atom b) w
  | list {x y : SExp} {v w : List Char} (hv : IsPart x v) (hw : IsTail y w) : Stands (.pair x y) ('(' :: v ++ w)

theorem Stands.isPart {t : SExp} {w : List Char} (h : Stands t w) : IsPart t w := by
  cases h with
  | word h => exact isPart_leaf h
  | list hv hw => exact isPart_list hv hw

/-- A text that stands for a tree as an item of a list. -/
def IsItem (w : List Char) : Prop := ∃ t, IsPart t w

theorem Stands.isWhole {t : SExp} {w : List Char} (h : Stands t w) : IsWhole w t := by
  have hread : ∃ n, readStream (stream w) = .ok (n, []) ∧ Assembles t n := by
    cases h with
    | word h => exact readStream_word h
    | list hv hw => exact readStream_list (hv.reads.mono fun _ => Open.IsFresh.accepts) hw.closes assembles_cons
  obtain ⟨n, hread, hn⟩ := hread
  refine ⟨h.isPart.seals.fault, ⟨n, hread⟩, ?_⟩
  rw [SExp.ofSource, Node.read, hread]
  exact hn

/-! ### Atoms -/

/-- A text that is a word for an atom. -/
def IsAtom (w : List Char) : Prop := ∃ b, IsLeaf w (Assembles (.atom b))

theorem IsAtom.isItem {w : List Char} (h : IsAtom w) : IsItem w := by
  obtain ⟨b, hb⟩ := h
  exact ⟨.atom b, isPart_leaf hb⟩

theorem isAtom_hex (b : Bytes) : IsAtom ("0x".toList ++ Bytes.toHex b) :=
  ⟨b, isLeaf_hex b fun offset => assemble_located (by decide) (by decide) offset _⟩

theorem isAtom_string {cs : List Char} (h : ∀ c ∈ cs, c ≠ '"') : IsAtom ('"' :: cs ++ ['"']) :=
  ⟨_, isLeaf_quoted (by decide) h fun offset => assemble_located (by decide) (by decide) offset _⟩

/-- The word of a number. -/
theorem isLeaf_natural {n : Nat} (h : (Text.natural n).length ≤ Text.maxDigits) :
    IsLeaf (Text.natural n) (Assembles (.ofNat n)) :=
  isLeaf_integer (i := n) h fun offset => assemble_located (by decide) (by decide) offset _

section Values
variable {σ : Type} [Source σ]

theorem always_smallValue : Always (smallValue : Draw σ (List Char)) IsAtom :=
  always_bind (always_true _) fun n _ => always_pure (isAtom_hex [UInt8.ofNat n])

theorem always_string : Always (string : Draw σ (List Char)) IsAtom := by
  refine always_bind (always_true _) fun n _ => ?_
  refine always_bind (always_times n (always_between (by decide))) fun letters hletters => always_pure ?_
  refine isAtom_string fun c hc => ?_
  obtain ⟨n, hn, rfl⟩ := List.mem_map.mp hc
  obtain ⟨hlow, hhigh⟩ := hletters n hn
  rintro hquote
  have hcode := congrArg Char.toNat hquote
  rw [Text.toNat_ofNat_ascii (by omega)] at hcode
  exact absurd hcode (by show n ≠ 34; omega)

theorem flatMap_hexByte (ns : List Nat) : ns.flatMap hexByte = Bytes.toHex (ns.map UInt8.ofNat) := by
  induction ns with
  | nil => rfl
  | cons n ns ih =>
    rw [List.flatMap_cons, ih]
    rfl

theorem always_value : Always (value : Draw σ (List Char)) IsAtom := by
  refine always_bind (always_true _) fun n _ => ?_
  split
  · exact always_string
  · refine always_bind (always_true _) fun count _ => always_bind (always_true _) fun bytes _ => always_pure ?_
    rw [flatMap_hexByte]
    exact isAtom_hex _

/-- Whether a text is that of bytes in hexadecimal. -/
def isHexText (w : List Char) : Bool := (Text.bytesOfHex? (w.drop 2)).any fun b => w == "0x".toList ++ Bytes.toHex b

theorem isAtom_of_isHexText {w : List Char} (h : isHexText w = true) : IsAtom (String.ofList w).toList := by
  obtain ⟨b, -, hb⟩ := Option.any_eq_true _ _ |>.mp h
  rw [String.toList_ofList, beq_iff_eq.mp hb]
  exact isAtom_hex b

theorem always_point : Always (point : Draw σ (List Char)) IsAtom := by
  refine always_map (always_choose _ _) fun w hw => ?_
  simp only [List.mem_cons, List.not_mem_nil, or_false] at hw
  rcases hw with rfl | rfl | rfl | rfl <;> exact isAtom_of_isHexText (by decide +kernel)

end Values

/-! ### Lists -/

theorem isParenthesised_append (v w : List Char) : IsParenthesised ('(' :: v ++ (w ++ [')'])) := ⟨v ++ w, by simp⟩

/-- A text in parentheses that is an expression. -/
def IsList (w : List Char) : Prop := (∃ t, Stands t w) ∧ IsParenthesised w

theorem IsList.isItem {w : List Char} (h : IsList w) : IsItem w := by
  obtain ⟨⟨t, ht⟩, -⟩ := h
  exact ⟨t, ht.isPart⟩

/-- Whether a name is the keyword of an operator. -/
def isOperator (name : String) : Bool := Keyword.table.contains name && name != "."

theorem isPart_of_isOperator {name : String} (h : isOperator name = true) : ∃ b, IsPart (.atom b) name.toList := by
  simp only [isOperator, Bool.and_eq_true, List.contains_iff_mem, bne_iff_ne] at h
  obtain ⟨n, hn⟩ := List.mem_iff_getElem?.mp h.1
  have hdot : name.toList ≠ ['.'] := fun heq => h.2 (String.toList_injective heq)
  exact ⟨_, isPart_leaf (isLeaf_keyword (isKeywordFor_of_getElem? hn hdot))⟩

theorem isList_quoted {w : List Char} (h : IsItem w) : IsList (quoted w) := by
  obtain ⟨t, ht⟩ := h
  obtain ⟨b, hq⟩ := isPart_of_isOperator (show isOperator "q" = true by decide +kernel)
  have htext : quoted w = '(' :: "q".toList ++ (" . ".toList ++ w ++ [')']) := rfl
  rw [htext]
  exact ⟨⟨_, .list hq (isTail_dot ht)⟩, isParenthesised_append _ _⟩

/-- The operands of a call are the rest of its list. -/
theorem isTail_operands {texts : List (List Char)} (h : ∀ w ∈ texts, IsItem w) :
    ∃ t, IsTail t (texts.flatMap (' ' :: ·) ++ [')']) := by
  induction texts with
  | nil => exact ⟨.nil, isTail_nil⟩
  | cons w texts ih =>
    obtain ⟨t, ht⟩ := h w List.mem_cons_self
    obtain ⟨u, hu⟩ := ih fun w hw => h w (List.mem_cons_of_mem _ hw)
    refine ⟨.pair t u, ?_⟩
    rw [List.flatMap_cons, List.append_assoc]
    exact isTail_cons ht hu

section Calls
variable {σ : Type}

theorem always_call {name : String} (hname : isOperator name = true) {operands : List (Draw σ (List Char))}
    (h : ∀ d ∈ operands, Always d IsItem) : Always (call name operands) IsList := by
  refine always_bind (always_mapM h) fun texts htexts => always_pure ?_
  obtain ⟨b, hb⟩ := isPart_of_isOperator hname
  obtain ⟨t, ht⟩ := isTail_operands htexts
  rw [List.append_assoc]
  exact ⟨⟨_, .list hb ht⟩, isParenthesised_append _ _⟩

theorem always_quoted {d : Draw σ (List Char)} (h : Always d IsItem) : Always (quoted <$> d) IsList :=
  always_map h fun _ => isList_quoted

theorem always_quoted_atom {d : Draw σ (List Char)} (h : Always d IsAtom) : Always (quoted <$> d) IsList :=
  always_quoted (h.mono fun _ => IsAtom.isItem)

variable [Source σ]

theorem always_pairOfValues : Always (pairOfValues : Draw σ (List Char)) IsList := by
  refine always_bind always_value fun v ⟨b, hv⟩ => always_bind always_value fun w ⟨c, hw⟩ => always_pure ?_
  have htext : '(' :: v ++ ' ' :: w ++ [')'] = '(' :: v ++ (' ' :: w ++ [')']) := List.append_assoc _ _ _
  rw [htext]
  exact ⟨⟨_, .list (isPart_leaf hv) (isTail_cons (isPart_leaf hw) isTail_nil)⟩, isParenthesised_append _ _⟩

theorem always_valueList : Always (quoted <$> pairOfValues : Draw σ (List Char)) IsList :=
  always_quoted (always_pairOfValues.mono fun _ => IsList.isItem)

theorem always_constant (kind : Kind) : Always (constant kind : Draw σ (List Char)) IsList := by
  cases kind with
  | smallValue => exact always_quoted_atom always_smallValue
  | value => exact always_quoted_atom always_value
  | list | valueList | anything => exact always_valueList
  | point => exact always_quoted_atom always_point
  | string => exact always_quoted_atom always_string
  | program => exact always_map always_value fun _ hv => isList_quoted (isList_quoted hv.isItem).isItem

end Calls

/-! ### Trees and paths -/

/-- A tree all of whose leaves are equally deep. -/
def IsFull : Nat → SExp → Prop
  | 0, .atom _ => True
  | d + 1, .pair x y => IsFull d x ∧ IsFull d y
  | _, _ => False

/-- The numbers of the places where the leaves of a tree are that is drawn for a depth. -/
def IsPathNumber (depth n : Nat) : Prop := 2 ^ (depth - 1) ≤ n ∧ n < 2 ^ depth

/-- All paths for a depth are short enough to be numbers. -/
def PrintsPaths (depth : Nat) : Prop := ∀ n, IsPathNumber depth n → (Text.natural n).length ≤ Text.maxDigits

theorem printsPaths_of_le {depth : Nat} (h : 2 ^ depth ≤ 10 ^ Text.maxDigits) : PrintsPaths depth := fun _ hn =>
  (Nat.length_toDigits_le_iff (by decide) (by decide)).mpr (hn.2.trans_le h)

/-- A path that is as long as a full tree is deep leads to a leaf. -/
theorem descend_of_isFull {turns : List Bool} {t : SExp} (h : IsFull turns.length t) :
    ∃ b, Machine.descend turns t = .ok (.atom b) := by
  induction turns generalizing t with
  | nil =>
    cases t with
    | atom b => exact ⟨b, rfl⟩
    | pair x y => cases h
  | cons side turns ih =>
    cases t with
    | atom b => cases h
    | pair x y =>
      cases side with
      | false => exact ih h.1
      | true => exact ih h.2

theorem IsPathNumber.ne_zero {depth n : Nat} (h : IsPathNumber depth n) : n ≠ 0 :=
  Nat.ne_zero_of_lt ((Nat.two_pow_pos (depth - 1)).trans_le h.1)

theorem length_branches_of_isPathNumber {depth n : Nat} (hdepth : 1 ≤ depth) (h : IsPathNumber depth n) :
    (Machine.branches n).length = depth - 1 := by
  rw [Machine.branches, Machine.length_lowBits, Nat.log2_eq_iff h.ne_zero]
  exact ⟨h.1, by rw [Nat.sub_add_cancel hdepth]; exact h.2⟩

/-- A path for the depth of a full tree, as it is assembled, leads to an atom. -/
theorem locate_of_isFull {depth n : Nat} (hdepth : 1 ≤ depth) (hn : IsPathNumber depth n) {t : SExp}
    (ht : IsFull (depth - 1) t) : ∃ c, Machine.locate (Bytes.ofInt n) t = .ok (.atom c) := by
  have hnat : Bytes.toNat (Bytes.ofInt n) = n := by
    have hint := Bytes.toInt_ofInt n
    rw [Bytes.toInt_eq_toNat (by omega)] at hint
    exact Int.ofNat.inj hint
  rw [← length_branches_of_isPathNumber hdepth hn] at ht
  rw [Machine.locate_eq_placeAt, hnat, Machine.placeAt, if_neg hn.ne_zero]
  exact descend_of_isFull ht

section Draws
variable {σ : Type} [Source σ]

theorem always_tree (d : Nat) : Always (tree (d + 1) : Draw σ (List Char)) fun w =>
    ∃ t, IsFull d t ∧ Stands t w ∧ (1 ≤ d → IsParenthesised w) := by
  induction d with
  | zero => exact always_value.mono fun w ⟨b, hb⟩ => ⟨.atom b, trivial, .word hb, nofun⟩
  | succ d ih =>
    refine always_bind ih fun v ⟨x, hx, hv, _⟩ => always_bind ih fun w ⟨y, hy, hw, _⟩ => always_pure ?_
    have htext : '(' :: v ++ " . ".toList ++ w ++ [')'] = '(' :: v ++ (" . ".toList ++ w ++ [')']) := by
      simp only [List.append_assoc]
    rw [htext]
    exact ⟨.pair x y, ⟨hx, hy⟩, .list hv.isPart (isTail_dot hw.isPart), fun _ => isParenthesised_append _ _⟩

theorem always_pathNumber (d : Nat) {e n : Nat} (hn : IsPathNumber (e + 1) n) :
    Always (pathNumber d n : Draw σ Nat) (IsPathNumber (e + 1 + d)) := by
  induction d generalizing e n with
  | zero => exact always_pure hn
  | succ d ih =>
    refine always_bind always_bit fun x hx => ?_
    have hnext : IsPathNumber (e + 1 + 1) (2 * n + x) := by
      obtain ⟨hlow, hhigh⟩ := hn
      rw [IsPathNumber, Nat.add_sub_cancel, pow_succ, pow_succ] at *
      omega
    have hdepth : e + 1 + (d + 1) = e + 1 + 1 + d := by omega
    rw [hdepth]
    exact ih hnext

theorem always_path (depth : Nat) (h : 1 ≤ depth) : Always (path depth : Draw σ (List Char)) fun w =>
    ∃ n, IsPathNumber depth n ∧ w = Text.natural n := by
  refine always_bind (always_pathNumber (depth - 1) (e := 0) ⟨le_rfl, by decide⟩) fun n hn => always_pure ⟨n, ?_, rfl⟩
  rwa [Nat.zero_add, Nat.add_sub_cancel' h] at hn

end Draws

/-! ### Expressions -/

/-- A text that is an expression: one list, or the number of a path for the depth of the environment. -/
def IsExpression (env : Nat) (w : List Char) : Prop :=
  (∃ t, Stands t w) ∧ (IsParenthesised w ∨ ∃ n, IsPathNumber env n ∧ w = Text.natural n)

theorem IsList.isExpression {w : List Char} (h : IsList w) (env : Nat) : IsExpression env w := ⟨h.1, .inl h.2⟩

theorem IsExpression.isItem {env : Nat} {w : List Char} (h : IsExpression env w) : IsItem w := by
  obtain ⟨⟨t, ht⟩, -⟩ := h
  exact ⟨t, ht.isPart⟩

/-- A depth whose paths can be drawn and read. -/
structure Fits (env : Nat) : Prop where
  pos : 1 ≤ env
  prints : PrintsPaths env

theorem fits_of_le {env : Nat} (hpos : 1 ≤ env) (hle : env ≤ 5) : Fits env := by
  refine ⟨hpos, printsPaths_of_le ?_⟩
  calc 2 ^ env ≤ 2 ^ 5 := Nat.pow_le_pow_right (by decide) hle
    _ ≤ 10 ^ 2 := by decide
    _ ≤ 10 ^ Text.maxDigits := Nat.pow_le_pow_right (by decide) (by decide)

/-- Whether the operator that a shape names is a keyword. -/
def Shape.isNamed : Shape → Bool
  | .operands name _ | .unary name _ | .shift name => isOperator name
  | _ => true

theorem isNamed_ofKind (kind : Kind) : ((Shape.ofKind kind).1 :: (Shape.ofKind kind).2).all Shape.isNamed = true := by
  cases kind <;> decide +kernel

section Expressions
variable {σ : Type} [Source σ]

theorem always_condition {inner : Kind → Draw σ (List Char)} (hinner : ∀ kind, Always (inner kind) IsItem) :
    Always (conditionWith inner) IsItem := by
  have htwo : ∀ name, isOperator name = true →
      Always (call name [inner .value, inner .value]) IsItem := fun name hname =>
    (always_call hname (by simpa using hinner .value)).mono fun _ => IsList.isItem
  refine always_bind (always_true _) fun choice _ => ?_
  split
  · exact htwo _ (by decide +kernel)
  · exact htwo _ (by decide +kernel)
  · exact htwo _ (by decide +kernel)
  · exact hinner .value
  · exact (always_call (by decide +kernel) (by simpa using hinner .anything)).mono fun _ => IsList.isItem
  · exact (always_quoted_atom always_smallValue).mono fun _ => IsList.isItem

/-- Each shape gives an expression, if the expressions in it are drawn as such. -/
theorem always_ofShape {inner : Nat → Kind → Draw σ (List Char)} {test : Kind → Draw σ (List Char)}
    (hinner : ∀ env kind, Fits env → Always (inner env kind) (IsExpression env))
    (htest : ∀ kind, Always (test kind) IsItem) {env : Nat} (henv : Fits env) (kind : Kind) {shape : Shape}
    (hshape : shape.isNamed = true) : Always (ofShape inner test env kind shape) (IsExpression env) := by
  have hpart : ∀ kind, Always (inner env kind) IsItem := fun kind =>
    (hinner env kind henv).mono fun _ => IsExpression.isItem
  have hsmall : Always (quoted <$> smallValue : Draw σ (List Char)) IsItem :=
    (always_quoted_atom always_smallValue).mono fun _ => IsList.isItem
  have hlist : ∀ d : Draw σ (List Char), Always d IsList → Always d (IsExpression env) := fun d hd =>
    hd.mono fun _ hw => hw.isExpression env
  have hcall : ∀ name, isOperator name = true → ∀ operands : List (Draw σ (List Char)),
      (∀ d ∈ operands, Always d IsItem) → Always (call name operands) (IsExpression env) :=
    fun name hname operands h => hlist _ (always_call hname h)
  have hsame : ∀ n kind, ∀ d ∈ List.replicate n (inner env kind), Always d IsItem := fun n kind d hd => by
    rw [List.eq_of_mem_replicate hd]
    exact hpart kind
  cases shape with
  | value => exact hlist _ (always_quoted_atom always_value)
  | smallValue => exact hlist _ (always_quoted_atom always_smallValue)
  | point => exact hlist _ (always_quoted_atom always_point)
  | string => exact hlist _ (always_quoted_atom always_string)
  | valueList => exact hlist _ always_valueList
  | path =>
    refine (always_path env henv.pos).mono fun w ⟨n, hn, hw⟩ => ⟨⟨.ofNat n, ?_⟩, .inr ⟨n, hn, hw⟩⟩
    rw [hw]
    exact .word (isLeaf_natural (henv.prints n hn))
  | cons | consOfValues | firstOfValues | rest | firstOfList => exact hcall _ (by decide +kernel) _ (by simp [hpart])
  | choice => exact hcall _ (by decide +kernel) _ (by simp [hpart, always_condition htest])
  | application =>
    refine always_bind (always_between (by decide)) fun depth ⟨hlow, hhigh⟩ => hcall _ (by decide +kernel) _ ?_
    have hprogram : Always (quoted <$> inner depth .anything) IsItem :=
      always_map (hinner depth .anything (fits_of_le hlow hhigh)) fun _ hw => (isList_quoted hw.isItem).isItem
    have htree : Always (quoted <$> tree depth : Draw σ (List Char)) IsItem := by
      obtain ⟨d, rfl⟩ : ∃ d, depth = d + 1 := ⟨depth - 1, by omega⟩
      exact always_map (always_tree d) fun _ ⟨t, _, ht, _⟩ => (isList_quoted ⟨t, ht.isPart⟩).isItem
    simp [hprogram, htree]
  | operands name operand => exact always_bind (always_true _) fun n _ => hcall name hshape _ (hsame n _)
  | unary name operand => exact hcall name hshape _ (by simp [hpart])
  | shift name => exact hcall name hshape _ (by simp [hpart])
  | division => exact hcall _ (by decide +kernel) _ (by simp [hpart, hsmall])
  | quotient | remainder =>
    have hdivmod : ∀ kind, Always (call "divmod" [inner env kind, quoted <$> smallValue]) IsItem := fun kind =>
      (always_call (by decide +kernel) (by simp [hpart, hsmall])).mono fun _ => IsList.isItem
    exact hcall _ (by decide +kernel) _ (by simp [hdivmod])
  | concatenation =>
    refine always_bind (always_true _) fun n _ => hcall _ (by decide +kernel) _ ?_
    have hstring : Always (quoted <$> string : Draw σ (List Char)) IsItem :=
      (always_quoted_atom always_string).mono fun _ => IsList.isItem
    exact List.forall_mem_append.mpr ⟨hsame n .value, List.forall_mem_singleton.mpr hstring⟩
  | substring =>
    have hdigit : ∀ n, n < 2 → Always (pure (quoted (Text.natural n)) : Draw σ (List Char)) IsItem := fun n hn =>
      always_pure (isList_quoted ⟨_, isPart_leaf (isLeaf_natural (by interval_cases n <;> decide))⟩).isItem
    refine hcall _ (by decide +kernel) _ (List.forall_mem_cons.mpr ⟨hpart .string, ?_⟩)
    exact List.forall_mem_cons.mpr ⟨hdigit 0 (by decide), List.forall_mem_singleton.mpr (hdigit 1 (by decide))⟩

theorem always_compound {inner test : Nat → Kind → Draw σ (List Char)}
    (hinner : ∀ env kind, Fits env → Always (inner env kind) (IsExpression env))
    (htest : ∀ env kind, Fits env → Always (test env kind) (IsExpression env)) {env : Nat} (henv : Fits env) (kind : Kind) :
    Always (compound inner test env kind) (IsExpression env) := by
  refine always_bind (always_choose _ _) fun shape hshape => ?_
  exact always_ofShape hinner (fun kind => (htest env kind henv).mono fun _ => IsExpression.isItem) henv kind
    (List.all_eq_true.mp (isNamed_ofKind kind) shape hshape)

/-- An expression of any depth is drawn well formed: the expressions in it are less deep by one, and those in a condition
by two. -/
theorem always_expressionOfDepth (depth : Nat) {env : Nat} (henv : Fits env) (kind : Kind) :
    Always (expressionOfDepth depth env kind : Draw σ (List Char)) (IsExpression env) := by
  have hconstant : ∀ env kind, Fits env → Always (constant kind : Draw σ (List Char)) (IsExpression env) :=
    fun env kind _ => (always_constant kind).mono fun _ hw => hw.isExpression env
  induction depth using Nat.twoStepInduction generalizing env kind with
  | zero => exact hconstant env kind henv
  | one => exact always_compound hconstant hconstant henv kind
  | more depth ih ih' => exact always_compound (fun _ kind h => ih' h kind) (fun _ kind h => ih h kind) henv kind

end Expressions

/-- What is drawn is well formed, whatever the source of words and its state. An expression, of any depth and kind, is
one list in parentheses or the number of one path, it is read up to its end, and it assembles. A tree is one expression
as well, in parentheses unless it is a single value. And every path that is drawn for a depth leads to an atom in every
tree that is drawn for it. -/
theorem drawn_texts_wellFormed {σ : Type} [Source σ] :
    (∀ (depth : Int) (env : Nat) (kind : Kind) (g : σ), 1 ≤ env → PrintsPaths env →
      ∃ text t, ((expression depth env kind).run g).1 = text ∧ IsWhole text t ∧
        (IsParenthesised text ∨ ∃ n, IsPathNumber env n ∧ text = Text.natural n)) ∧
    (∀ (d : Nat) (g : σ), 1 ≤ d →
      ∃ text t, ((tree d).run g).1 = text ∧ IsWhole text t ∧ IsFull (d - 1) t ∧ (2 ≤ d → IsParenthesised text)) ∧
    ∀ (d : Nat) (g g' : σ), 1 ≤ d → PrintsPaths d →
      ∃ b t c, SExp.ofSource ((path d).run g).1 = .ok (.atom b) ∧ SExp.ofSource ((tree d).run g').1 = .ok t ∧
        Machine.locate b t = .ok (.atom c) := by
  refine ⟨fun depth env kind g hpos hprints => ?_, fun d g hd => ?_, fun d g g' hd hprints => ?_⟩
  · obtain ⟨⟨t, ht⟩, hshape⟩ := always_expressionOfDepth depth.toNat ⟨hpos, hprints⟩ kind g
    exact ⟨_, t, rfl, ht.isWhole, hshape⟩
  · obtain ⟨d, rfl⟩ : ∃ e, d = e + 1 := ⟨d - 1, by omega⟩
    obtain ⟨t, hfull, ht, hparens⟩ := always_tree d g
    exact ⟨_, t, rfl, ht.isWhole, hfull, fun h => hparens (by omega)⟩
  · obtain ⟨n, hn, hpath⟩ := always_path d hd g
    obtain ⟨e, rfl⟩ : ∃ e, d = e + 1 := ⟨d - 1, by omega⟩
    obtain ⟨t, hfull, ht, -⟩ := always_tree e g'
    obtain ⟨c, hlocate⟩ := locate_of_isFull hd hn hfull
    have hnumber : Stands (.ofNat n) (Text.natural n) := .word (isLeaf_natural (hprints n hn))
    exact ⟨_, t, c, by rw [hpath]; exact hnumber.isWhole.assembles, ht.isWhole.assembles, hlocate⟩

/-- The largest depth whose paths can all be read is 14284. For it, a program of depth 20 is drawn from a seed, and a path
and a tree from two others. -/
theorem drawn_texts_wellFormed_largest :
    (1 ≤ 14284 ∧ PrintsPaths 14284 ∧ ¬PrintsPaths 14285) ∧
      (∃ t, IsWhole ((expression 20 14284 .anything).run (Twister.ofSeed 1)).1 t) ∧
      ∃ b t c, SExp.ofSource ((path 14284).run (Twister.ofSeed 2)).1 = .ok (.atom b) ∧
        SExp.ofSource ((tree 14284).run (Twister.ofSeed 3)).1 = .ok t ∧ Machine.locate b t = .ok (.atom c) := by
  have hprints : PrintsPaths 14284 := printsPaths_of_le (by decide +kernel)
  have hlong : ¬PrintsPaths 14285 := fun h => by
    have hlength := h (2 ^ 14285 - 1) ⟨by decide +kernel, by decide +kernel⟩
    rw [Text.natural, Nat.length_toDigits_le_iff (by decide) (by decide)] at hlength
    exact absurd hlength (by decide +kernel)
  obtain ⟨hexpression, -, hpath⟩ := drawn_texts_wellFormed (σ := Twister)
  obtain ⟨text, t, rfl, ht, -⟩ := hexpression 20 14284 .anything (.ofSeed 1) (by decide) hprints
  exact ⟨⟨by decide, hprints, hlong⟩, ⟨t, ht⟩, hpath 14284 (.ofSeed 2) (.ofSeed 3) (by decide) hprints⟩

end Clvm.Random
