import Clvm.Compiler.Declarations
import Clvm.Proofs.Compiler.Nesting

/-!
# Inline functions

An inline function becomes a macro whose template has its parameters unquoted, wherever they stand in its code. So filling the
template puts what is assigned to the parameters in their places, and changes nothing else. This is said of a filling by the
rules of quasi-quotation and of the program that the template is compiled to.
-/

namespace Clvm.Compiler
open Machine

def parameterNames (parameters : SExp) : List Bytes := parameters.leaves.filter (· ≠ [])

/-- The tree with what is assigned to the names in their places. -/
def replaceAtoms (names : List Bytes) (assigned : Bytes → SExp) : SExp → SExp
  | .atom b => if names.contains b then assigned b else .atom b
  | .pair x y => .pair (replaceAtoms names assigned x) (replaceAtoms names assigned y)

/-- Fills a template without inner ones: a pair that starts with `unquote` becomes the value of its argument, be it an item or
the end of a list. -/
def fillTemplate (value : SExp → Except Error SExp) : SExp → Except Error SExp
  | .atom b => .ok (.atom b)
  | .pair x y =>
    if x = .atom Word.unquote then do value (← y.first)
    else do return .pair (← fillTemplate value x) (← fillTemplate value y)

variable {names : List Bytes} {assigned : Bytes → SExp}

/-! ### Filling -/

theorem mem_leaves_of_unquoteParameters {x : SExp} {b : Bytes} (h : unquoteParameters names x = .atom b) : b ∈ x.leaves := by
  cases x with
  | pair x y => cases h
  | atom c =>
    rw [unquoteParameters] at h
    split at h
    · cases h
    · cases h
      exact List.mem_singleton_self _

theorem fillTemplate_unquoteParameters {code : SExp} (h : Word.unquote ∉ code.leaves) {value : SExp → Except Error SExp}
    (hvalue : ∀ b ∈ names, value (.atom b) = .ok (assigned b)) :
    fillTemplate value (unquoteParameters names code) = .ok (replaceAtoms names assigned code) := by
  induction code with
  | atom b =>
    rw [unquoteParameters, replaceAtoms]
    split
    · rename_i hb
      exact hvalue b (List.contains_iff_mem.mp hb)
    · rfl
  | pair x y ihx ihy =>
    obtain ⟨hx, hy⟩ : Word.unquote ∉ x.leaves ∧ Word.unquote ∉ y.leaves := by simpa [SExp.leaves] using h
    rw [unquoteParameters, fillTemplate, if_neg (mt mem_leaves_of_unquoteParameters hx), ihx hx, ihy hy]
    rfl

/-! ### Compiling -/

namespace Template

/-- The template of a code in which the names are parameters. -/
def ofCode (names : List Bytes) : SExp → Template
  | .atom b => if names.contains b then .unquote (.leaf b) else .leaf b
  | .pair x y => .pair (ofCode names x) (ofCode names y)

theorem toTree_ofCode (code : SExp) : (ofCode names code).toTree = unquoteParameters names code := by
  induction code with
  | atom b =>
    rw [ofCode, unquoteParameters]
    split <;> rfl
  | pair x y ihx ihy => rw [ofCode, toTree, unquoteParameters, ihx, ihy]

theorem not_hasInner_ofCode (code : SExp) : ¬(ofCode names code).HasInner := by
  induction code with
  | atom b =>
    rw [ofCode]
    split <;> exact not_false
  | pair x y ihx ihy => exact not_or.mpr ⟨ihx, ihy⟩

theorem wellFormed_ofCode {code : SExp} (hquasi : Word.quasi ∉ code.leaves) (hunquote : Word.unquote ∉ code.leaves) :
    (ofCode names code).WellFormed := by
  induction code with
  | atom b =>
    rw [ofCode]
    split <;> trivial
  | pair x y ihx ihy =>
    simp only [SExp.leaves, List.mem_append, not_or] at hquasi hunquote
    have hword : ∀ op, op ∉ x.leaves → ofCode names x ≠ .leaf op := by
      intro op hop heq
      have hatom : unquoteParameters names x = .atom op := by rw [← toTree_ofCode, heq, toTree]
      exact hop (mem_leaves_of_unquoteParameters hatom)
    exact ⟨hword _ hquasi.1, hword _ hunquote.1, ihx hquasi.1 hunquote.1, ihy hquasi.2 hunquote.2⟩

end Template

theorem mem_leaves_unquoteParameters {code : SExp} {b : Bytes} (h : b ∈ (unquoteParameters names code).leaves) :
    b ∈ code.leaves ∨ b = Word.unquote ∨ b = [] := by
  induction code with
  | atom c =>
    rw [unquoteParameters] at h
    split at h
    · simp only [SExp.ofList, SExp.ofListWith, SExp.nil, SExp.leaves, List.mem_append, List.mem_singleton] at h ⊢
      tauto
    · exact .inl h
  | pair x y ihx ihy =>
    simp only [unquoteParameters, SExp.leaves, List.mem_append] at h ⊢
    rcases h with h | h
    · exact (ihx h).imp_left .inl
    · exact (ihy h).imp_left .inr

/-- The code with something else in the places of the names. -/
def outlineOf {α : Type} (names : List Bytes) (f : Bytes → α) : SExp → Outline α
  | .atom b => if names.contains b then .hole (f b) else .leaf b
  | .pair x y => .pair (outlineOf names f x) (outlineOf names f y)

variable {scope : Scope} {programs : Bytes → SExp}

theorem compiles_of_compileAtom {b : Bytes} {p : SExp} (h : compileAtom scope b = .ok p) (w : Session) :
    Compiles scope (.atom b) w p w := by
  refine compiles_of_compile (show compile scope 1 (.atom b) w = _ from ?_)
  exact Action.ofExcept_eq_ok.mpr ⟨h, rfl⟩

theorem threads_ofCode (hprograms : ∀ b ∈ names, compileAtom scope b = .ok (programs b)) (code : SExp) (w : Session) :
    ((Template.ofCode names code).sites 0 0 0 false).Threads (Fills scope) w
      (outlineOf names (fun b => ⟨programs b, programs b⟩) code) w := by
  induction code with
  | atom b =>
    rw [Template.ofCode, outlineOf]
    split
    · rename_i hb
      exact .hole (fills_of_recompiles (compiles_of_compileAtom (hprograms b (List.contains_iff_mem.mp hb)) w) (.done _ _))
    · exact .leaf b w
  | pair x y ihx ihy => exact .pair ihx ihy

theorem value_outlineOf {σ : Type} {ops : Operators σ} {env : SExp} {f : Bytes → Filling}
    (hvalues : ∀ b ∈ names, value ops (f b).placed env = pure (assigned b)) (code : SExp) :
    ((outlineOf names f code).map (·.placed)).value ops env = pure (replaceAtoms names assigned code) := by
  induction code with
  | atom b =>
    rw [outlineOf, replaceAtoms]
    split
    · rename_i hb
      exact hvalues b (List.contains_iff_mem.mp hb)
    · rfl
  | pair x y ihx ihy =>
    rw [outlineOf, Outline.map, Outline.value, ihx, ihy]
    rfl

/-- The template of an inline function, filled with what is assigned to its parameters, is its code with every parameter
replaced by what is assigned to it. The same is the value of the program that the template is compiled to, where the programs
of the parameters have the values that are assigned to them. -/
theorem inline_substitutes [Curve] {code : SExp} (hquasi : Word.quasi ∉ code.leaves)
    (hunquote : Word.unquote ∉ code.leaves) (keyword name parameters more : SExp) :
    let names := parameterNames parameters
    ∃ template, inlineToMacro (.pair keyword (.pair name (.pair parameters (.pair code more)))) =
        .ok (.ofList [.atom Word.defineMacro, name, parameters, .ofList [.atom Word.quasi, template]]) ∧
      ∀ assigned : Bytes → SExp,
        (∀ value, (∀ b ∈ names, value (.atom b) = .ok (assigned b)) →
          fillTemplate value template = .ok (replaceAtoms names assigned code)) ∧
        ∀ (scope : Scope) (programs : Bytes → SExp), lookupMacro Word.quasi scope.macros = .ok none →
          Word.quote ∉ code.leaves → (∀ b ∈ names, compileAtom scope b = .ok (programs b)) →
          ∀ w, ∃ program, Compiles scope (.ofList [.atom Word.quasi, template]) w program w ∧
            ∀ settings run fuel env,
              (∀ b ∈ names, value (operators settings run fuel) (programs b) env = pure (assigned b)) →
              value (operators settings run fuel) program env = pure (replaceAtoms names assigned code) := by
  intro names
  refine ⟨unquoteParameters names code, rfl, fun assigned => ⟨fun value hvalue => ?_, ?_⟩⟩
  · exact fillTemplate_unquoteParameters hunquote hvalue
  · intro scope programs hnone hquote hprograms w
    have hquote' : Word.quote ∉ (Template.ofCode names code).toTree.leaves := by
      rw [Template.toTree_ofCode]
      intro hmem
      rcases mem_leaves_unquoteParameters hmem with h | h | h
      · exact hquote h
      · exact absurd h (by decide)
      · exact absurd h (by decide)
    obtain ⟨program, hprogram, hvalue⟩ := compiles_template hnone (Template.wellFormed_ofCode hquasi hunquote) hquote'
      (fun h => absurd h (Template.not_hasInner_ofCode code)) (threads_ofCode hprograms code w)
    rw [Template.toTree_ofCode] at hprogram
    refine ⟨program, hprogram, fun settings run fuel env hvalues => ?_⟩
    rw [hvalue (pairsValues_operators settings run fuel)]
    exact value_outlineOf hvalues code

/-- The code `((x . y) f . x)` of the parameters `(x (y . x) ())`, with a list for `x`: a parameter stands as an operator, as
the end of a list and next to another. -/
theorem inline_substitutes_dotted :
    let x := SExp.atom [120]
    let y := SExp.atom [121]
    let parameters := SExp.ofList [x, .pair y x, .nil]
    let code := SExp.pair (.pair x y) (.pair (.atom [102]) x)
    let unquoted := fun t => SExp.ofList [.atom Word.unquote, t]
    let template := SExp.pair (.pair (unquoted x) (unquoted y)) (.pair (.atom [102]) (unquoted x))
    let list := SExp.ofList [.atom [5], .atom [6]]
    let filled := SExp.pair (.pair list (.atom [7])) (.pair (.atom [102]) list)
    let scope : Scope := { bareScope with
      symbols := .ofList [.ofList [x, Path.top.toSExp], .ofList [y, Form.quote (.atom [7])]] }
    let w := Session.start .empty
    Word.quasi ∉ code.leaves ∧ Word.unquote ∉ code.leaves ∧
    inlineToMacro (.ofList [.atom Word.defineInline, .atom [103], parameters, code]) =
      .ok (.ofList [.atom Word.defineMacro, .atom [103], parameters, .ofList [.atom Word.quasi, template]]) ∧
    fillTemplate (fun t => .ok (if t = x then list else .atom [7])) template = .ok filled ∧
    lookupMacro Word.quasi scope.macros = .ok none ∧ Word.quote ∉ code.leaves ∧
    ∃ program, Compiles scope (.ofList [.atom Word.quasi, template]) w program w ∧
      ∀ settings run fuel, value (operators settings run fuel) program list = pure filled := by
  intro x y parameters code unquoted template list filled scope w
  have hquasi : Word.quasi ∉ code.leaves := by decide
  have hunquote : Word.unquote ∉ code.leaves := by decide
  have hquote : Word.quote ∉ code.leaves := by decide
  have hnames : parameterNames parameters = [[120], [121], [120]] := by decide
  have hboth : ∀ {P : Bytes → Prop}, P [120] → P [121] → ∀ b ∈ parameterNames parameters, P b := by
    intro P hx hy
    simp [hnames, hx, hy]
  obtain ⟨template', hmacro, hfill⟩ := inline_substitutes hquasi hunquote (.atom Word.defineInline) (.atom [103])
    parameters .nil
  obtain ⟨hrules, hcompiled⟩ := hfill fun b => if b = [120] then list else .atom [7]
  have htemplate : template' = template := by
    have heq := hmacro.symm.trans (rfl : inlineToMacro _ = .ok (.ofList
      [.atom Word.defineMacro, .atom [103], parameters, .ofList [.atom Word.quasi, template]]))
    simpa [SExp.ofList, SExp.ofListWith] using heq
  subst htemplate
  obtain ⟨program, hprogram, hvalue⟩ := hcompiled scope
    (fun b => if b = [120] then Path.top.toSExp else Form.quote (.atom [7])) rfl hquote (hboth rfl rfl) w
  refine ⟨hquasi, hunquote, hmacro, hrules _ (hboth rfl rfl), rfl, hquote, program, hprogram, ?_⟩
  intro settings run fuel
  exact hvalue settings run fuel list (hboth (value_top _ _) (value_formQuote _ _))

end Clvm.Compiler
