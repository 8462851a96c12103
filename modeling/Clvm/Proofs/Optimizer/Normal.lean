import Clvm.Proofs.Compiler.Symbols
import Clvm.Proofs.Optimizer.Limits

/-!
# Optimised programs are done

A program is done when a whole round of passes leaves it as it is. Optimising its parts was one of these passes, so its
parts are done too, and no pass that looks at one program finds anything to do wherever something is evaluated. Another
optimisation repeats that last round. It ends the same way if the answers of the runner are the same again, which they are
not always: programs can leave symbol files and read them.
-/

namespace Clvm.Optimizer
open Machine Compiler

/-- The parts of a program at which something is evaluated: the program, and whatever stands in a list there that is not
quoted. -/
inductive Evaluated (t : SExp) : SExp → Prop where
  | root : Evaluated t t
  | item {op operands x : SExp} (h : Evaluated t (.pair op operands)) (hop : op ≠ .atom Keyword.quote)
      (hx : x ∈ (SExp.pair op operands).items) : Evaluated t x

/-- Programs in which a pass that looks at one program finds something to do. -/
inductive Reducible : SExp → Prop where
  | firstOfCons (x y : SExp) : Reducible (Form.first (Form.cons x y))
  | restOfCons (x y : SExp) : Reducible (Form.rest (Form.cons x y))
  | firstOfPath {b : Bytes} (hb : b ≠ []) : Reducible (Form.first (.atom b))
  | restOfPath {b : Bytes} (hb : b ≠ []) : Reducible (Form.rest (.atom b))
  | quotedNil : Reducible (Form.quote .nil)
  | appliedNil (operands : SExp) : Reducible (.pair (.atom Keyword.apply) (.pair .nil operands))
  | appliedHere (body : SExp) {b : Bytes} (hb : Bytes.toInt b = 1) : Reducible (Form.apply (Form.quote body) (.atom b))
  | constant {op operands : SExp} (hconst : seemsConstant (.pair op operands) = .ok true)
      (hop : op ≠ .atom Keyword.quote) : Reducible (.pair op operands)

/-! ### The last round -/

section Round
variable {run : Runner} {fuel : Nat} {t t' : SExp} {s s' : Session}

/-- The last thing that optimising does is a round of passes on the result that changes nothing. -/
theorem exists_lastRound (h : optimize run fuel t s = .ok t' s') :
    (∃ b, t' = .atom b) ∨ ∃ k s₁, k < fuel ∧ ((∀ form env, Keeps leading (run form env)) → Leads s s₁) ∧
      firstChange (applyPass run (optimize run k) t') t' Pass.all s₁ = .ok none s' := by
  induction fuel generalizing t s with
  | zero => cases h
  | succ fuel ih =>
    cases t with
    | atom b => exact .inl ⟨b, (Action.pure_eq_ok.mp h).1.symm⟩
    | pair x y =>
      obtain ⟨change, s₁, hround, h⟩ := Action.bind_eq_ok.mp h
      cases change with
      | none =>
        obtain ⟨rfl, rfl⟩ := Action.pure_eq_ok.mp h
        exact .inr ⟨fuel, s, Nat.lt_succ_self fuel, fun _ => .refl, hround⟩
      | some change =>
        obtain ⟨pass, after⟩ := change
        obtain ⟨_, s₂, hrecord, h⟩ := Action.bind_eq_ok.mp h
        cases hrecord
        rcases ih h with hatom | ⟨k, s₃, hk, hleads, hlast⟩
        · exact .inl hatom
        · refine .inr ⟨k, s₃, Nat.lt_succ_of_lt hk, fun hrun => ?_, hlast⟩
          have hs₁ : Leads s s₁ :=
            keeps_firstChange (keeps_applyPass hrun (keeps_optimize hrun fuel) _) _ _ _ _ _ hround
          exact (hs₁.record ⟨pass, .pair x y, after⟩).trans (hleads hrun)

/-- In the end what came out is optimised to itself. -/
theorem exists_optimize_self (hrun : ∀ form env, Keeps leading (run form env)) (h : optimize run fuel t s = .ok t' s') :
    ∃ k s₁ s₂, k ≤ fuel ∧ Leads s s₁ ∧ optimize run k t' s₁ = .ok t' s₂ := by
  cases t' with
  | atom b =>
    cases fuel with
    | zero => cases h
    | succ fuel => exact ⟨fuel + 1, s, s, Nat.le_refl _, .refl, rfl⟩
  | pair x y =>
    obtain ⟨b, hb⟩ | ⟨k, s₁, hk, hleads, hlast⟩ := exists_lastRound h
    · cases hb
    · exact ⟨k + 1, s₁, s', hk, hleads hrun, Action.bind_eq_ok.mpr ⟨none, s', hlast, rfl⟩⟩

theorem extendPath_ne_pair {b : Bytes} {q : Path} {x y : SExp} : extendPath b q ≠ .ok (.pair x y) := by
  intro h
  obtain ⟨p, -, h⟩ := bind_eq_ok.mp h
  cases h

theorem not_reducible_of_lastRound (h : firstChange (applyPass run (optimize run fuel) t) t Pass.all s = .ok none s') :
    ¬Reducible t := by
  have hpass := firstChange_eq_none h
  have hpure : ∀ {x : SExp} {s₁ s₂ : Session}, (pure x : Action Session SExp) s₁ = .ok t s₂ → x = t :=
    fun h => (Action.pure_eq_ok.mp h).1
  obtain ⟨_, _, hparts⟩ := hpass .takeApart (by decide)
  obtain ⟨_, _, hconstant⟩ := hpass .evaluateConstant (by decide)
  obtain ⟨_, _, hunwrap⟩ := hpass .unwrapApply (by decide)
  obtain ⟨_, _, hmerge⟩ := hpass .mergePath (by decide)
  obtain ⟨_, _, hquoted⟩ := hpass .dropQuotedNil (by decide)
  obtain ⟨_, _, happlied⟩ := hpass .dropAppliedNil (by decide)
  intro hreducible
  -- Where a part would be left, it is smaller than the whole.
  cases hreducible with
  | firstOfCons x y =>
    have hsize := congrArg SExp.size (hpure hparts : x = _)
    simp only [Form.first, Form.cons, SExp.ofList, SExp.ofListWith, SExp.size] at hsize
    omega
  | restOfCons x y =>
    have hsize := congrArg SExp.size (hpure hparts : y = _)
    simp only [Form.rest, Form.cons, SExp.ofList, SExp.ofListWith, SExp.size] at hsize
    omega
  | @firstOfPath b hb =>
    cases b with
    | nil => exact hb rfl
    | cons x xs => exact extendPath_ne_pair (Action.ofExcept_eq_ok.mp hmerge).1
  | @restOfPath b hb =>
    cases b with
    | nil => exact hb rfl
    | cons x xs => exact extendPath_ne_pair (Action.ofExcept_eq_ok.mp hmerge).1
  | quotedNil => cases hpure hquoted
  | appliedNil operands => cases hpure happlied
  | @appliedHere body b hb =>
    have hbody : unwrapApply (Form.apply (Form.quote body) (.atom b)) = body := by
      show (if isWholeEnv (.atom b) then body else _) = body
      rw [isWholeEnv, hb]
      rfl
    have hsize := congrArg SExp.size (hbody.symm.trans (hpure hunwrap))
    simp only [Form.apply, Form.quote, SExp.ofList, SExp.ofListWith, SExp.size] at hsize
    omega
  | constant hconst hop =>
    rcases evaluateConstant_eq_ok hconstant with ⟨-, hnil⟩ | ⟨-, _, v, -, heq⟩
    · cases hnil hconst
    · cases heq
      exact hop rfl

/-- Whatever comes out of the optimiser. -/
def IsResult (run : Runner) (t : SExp) : Prop := ∃ fuel before s s', optimize run fuel before s = .ok t s'

theorem IsResult.item {op operands x : SExp} (h : IsResult run (.pair op operands)) (hop : op ≠ .atom Keyword.quote)
    (hx : x ∈ (SExp.pair op operands).items) : IsResult run x := by
  obtain ⟨fuel, before, s, s', h⟩ := h
  obtain ⟨b, hb⟩ | ⟨k, s₁, -, -, hlast⟩ := exists_lastRound h
  · cases hb
  · obtain ⟨s₂, s₃, hchildren⟩ := firstChange_eq_none hlast .optimizeChildren (by decide)
    rw [applyPass, optimizeChildren, if_neg hop] at hchildren
    obtain ⟨parts, s₄, hparts, hchildren⟩ := Action.bind_eq_ok.mp hchildren
    obtain ⟨_, s₅, -, hchildren⟩ := Action.bind_eq_ok.mp hchildren
    have heq : SExp.ofList parts = .pair op operands := (Action.pure_eq_ok.mp hchildren).1
    rw [← heq, SExp.items_ofList] at hparts hx
    obtain ⟨s₆, s₇, hitem⟩ := Action.mapM_eq_self hparts x hx
    exact ⟨k, x, s₆, s₇, hitem⟩

/-- Wherever something is evaluated in a result stands a result. -/
theorem IsResult.evaluated {c : SExp} (h : IsResult run t) (hc : Evaluated t c) : IsResult run c := by
  induction hc with
  | root => exact h
  | item _ hop hx ih => exact ih.item hop hx

theorem IsResult.not_reducible (h : IsResult run t) : ¬Reducible t := by
  obtain ⟨fuel, before, s, s', h⟩ := h
  obtain ⟨b, rfl⟩ | ⟨k, s₁, -, -, hlast⟩ := exists_lastRound h
  · intro hreducible
    cases hreducible
  · exact not_reducible_of_lastRound hlast

end Round

/-! ### Another optimisation -/

/-- A runner that refuses all but some programs. -/
def within (asked : SExp → Bool) (run : Runner) : Runner := fun form env =>
  if asked form then run form env else throw .outOfFuel

/-- A program to which a runner gives the same answer in every session that one leads to, if it gives any. -/
def SameAnswer (run : Runner) (s : Session) (program : SExp) : Prop :=
  ∀ t u cost v t', Leads s t → Leads s u → run program .nil t = .ok (cost, v) t' →
    ∃ cost' u', run program .nil u = .ok (cost', v) u'

/-- Whatever an action gives in a session that `s` leads to, another gives in each of them. -/
def Repeats {α : Type} (s : Session) (x y : Action Session α) : Prop :=
  ∀ t u a t', Leads s t → Leads s u → x t = .ok a t' → Leads s t' ∧ ∃ u', Leads s u' ∧ y u = .ok a u'

section Repeats
variable {α β : Type} {s : Session}

theorem repeats_pure (a : α) : Repeats s (pure a : Action Session α) (pure a) := by
  intro t u a' t' ht hu h
  obtain ⟨rfl, rfl⟩ := Action.pure_eq_ok.mp h
  exact ⟨ht, u, hu, rfl⟩

theorem repeats_lift (r : Except Error α) : Repeats s (liftM r : Action Session α) (liftM r) := by
  intro t u a t' ht hu h
  obtain ⟨hr, rfl⟩ := Action.lift_eq_ok.mp h
  exact ⟨ht, u, hu, Action.lift_eq_ok.mpr ⟨hr, rfl⟩⟩

theorem Repeats.bind {x y : Action Session α} {f g : α → Action Session β} (hx : Repeats s x y)
    (hf : ∀ a, Repeats s (f a) (g a)) : Repeats s (x >>= f) (y >>= g) := by
  intro t u b t' ht hu h
  obtain ⟨a, t₁, ha, hb⟩ := Action.bind_eq_ok.mp h
  obtain ⟨ht₁, u₁, hu₁, ha'⟩ := hx t u a t₁ ht hu ha
  obtain ⟨ht', u', hu', hb'⟩ := hf a t₁ u₁ b t' ht₁ hu₁ hb
  exact ⟨ht', u', hu', Action.bind_eq_ok.mpr ⟨a, u₁, ha', hb'⟩⟩

theorem repeats_mapM {f g : α → Action Session β} (hf : ∀ a, Repeats s (f a) (g a)) (xs : List α) :
    Repeats s (xs.mapM f) (xs.mapM g) := by
  induction xs with
  | nil => exact repeats_pure []
  | cons x xs ih =>
    rw [List.mapM_cons, List.mapM_cons]
    exact (hf x).bind fun _ => ih.bind fun _ => repeats_pure _

theorem repeats_record (r : Reduction) : Repeats s (Session.record r) (Session.record r) := by
  intro t u a t' ht hu h
  cases h
  exact ⟨ht.record r, _, hu.record r, rfl⟩

variable {run : Runner} {asked : SExp → Bool} (hrun : ∀ form env, Keeps leading (run form env))
  (hsame : ∀ p, asked p = true → SameAnswer run s p)
include hrun hsame

omit hsame in
theorem keeps_within (form env : SExp) : Keeps leading (within asked run form env) := by
  rw [within]
  split
  · exact hrun form env
  · exact keeps_throw _

theorem repeats_evaluateConstant (t : SExp) :
    Repeats s (evaluateConstant (within asked run) t) (evaluateConstant run t) := by
  refine (repeats_lift _).bind fun constant => ?_
  split
  · intro u v t' u' hu hv h
    obtain ⟨⟨cost, w⟩, u₁, hanswer, h⟩ := Action.bind_eq_ok.mp h
    obtain ⟨rfl, rfl⟩ := Action.pure_eq_ok.mp h
    rw [within] at hanswer
    split at hanswer
    · rename_i hasked
      obtain ⟨cost', v', hv'⟩ := hsame t hasked u v cost w u₁ hu hv hanswer
      refine ⟨hu.trans (hrun _ _ _ _ _ hanswer), v', hv.trans (hrun _ _ _ _ _ hv'), ?_⟩
      exact Action.bind_eq_ok.mpr ⟨_, _, hv', rfl⟩
    · cases hanswer
  · exact repeats_pure t

theorem repeats_applyPass {opt opt' : SExp → Action Session SExp} (hopt : ∀ t, Repeats s (opt t) (opt' t)) (t : SExp)
    (pass : Pass) : Repeats s (applyPass (within asked run) opt t pass) (applyPass run opt' t pass) := by
  cases pass with
  | evaluateConstant => exact repeats_evaluateConstant hrun hsame t
  | changeVariables =>
    rw [applyPass, applyPass, changeVariables, changeVariables]
    split
    · exact repeats_pure t
    · refine (repeats_lift _).bind fun moved => (repeats_lift _).bind fun constant => ?_
      split
      · exact hopt moved
      · exact (repeats_lift _).bind fun parts => (repeats_mapM hopt parts).bind fun _ => repeats_pure _
  | optimizeChildren =>
    rw [applyPass, applyPass, optimizeChildren.eq_def, optimizeChildren.eq_def]
    split
    · exact repeats_pure _
    · split
      · exact repeats_pure _
      · exact (repeats_mapM hopt _).bind fun _ => (repeats_lift _).bind fun _ => repeats_pure _
  | mergePath => exact repeats_lift _
  | takeApart | unwrapApply | dropQuotedNil | dropAppliedNil => exact repeats_pure _

omit hrun hsame in
theorem repeats_firstChange {apply apply' : Pass → Action Session SExp} (happly : ∀ pass, Repeats s (apply pass) (apply' pass))
    (t : SExp) (passes : List Pass) : Repeats s (firstChange apply t passes) (firstChange apply' t passes) := by
  induction passes with
  | nil => exact repeats_pure none
  | cons pass passes ih =>
    refine (happly pass).bind fun t' => ?_
    split
    · exact ih
    · exact repeats_pure _

/-- More fuel and a runner that refuses nothing do not change what an optimisation gives. -/
theorem repeats_optimize {k fuel : Nat} (hk : k ≤ fuel) (t : SExp) :
    Repeats s (optimize (within asked run) k t) (optimize run fuel t) := by
  induction k generalizing fuel t with
  | zero =>
    intro u v t' u' _ _ h
    cases h
  | succ k ih =>
    obtain ⟨fuel, rfl⟩ : ∃ n, fuel = n + 1 := ⟨fuel - 1, by omega⟩
    cases t with
    | atom b => exact repeats_pure _
    | pair x y =>
      have hopt : ∀ t, Repeats s (optimize (within asked run) k t) (optimize run fuel t) :=
        ih (Nat.le_of_succ_le_succ hk)
      rw [optimize, optimize]
      refine (repeats_firstChange (repeats_applyPass hrun hsame hopt _) _ _).bind fun change => ?_
      cases change with
      | none => exact repeats_pure _
      | some change =>
        obtain ⟨pass, after⟩ := change
        exact (repeats_record _).bind fun _ => hopt after

end Repeats

theorem sameAnswer_of_forall {run : Runner} {program : SExp} {r : Charged} (h : ∀ u, run program .nil u = .ok r u)
    {s : Session} : SameAnswer run s program := by
  intro t u cost v t' _ _ ht
  cases (h t).symm.trans ht
  exact ⟨cost, u, h u⟩

/-- The machine does not look at the session. -/
theorem sameAnswer_machineRunner [Curve] (steps : Nat) (s : Session) (program : SExp) :
    SameAnswer (machineRunner steps) s program := by
  intro t u cost v t' _ _ h
  exact ⟨cost, u, evaluate_base_eq_ok.mpr ⟨(evaluate_base_eq_ok.mp h).1, rfl⟩⟩

/-- Optimised programs are done. Wherever something is evaluated in one, no pass that looks at one program finds anything to
do, whatever the runner is. Optimising once more, in any session that comes after, changes nothing, if the answers to the
programs that the runner is asked for are the same in all these sessions. The runners of the compiler lead to such sessions
only, and the answers of the machine itself are always the same. -/
theorem optimize_normal_form [Curve] {run : Runner} {fuel : Nat} {t t' : SExp} {s s' : Session}
    (h : optimize run fuel t s = .ok t' s') :
    (∀ c, Evaluated t' c → ¬Reducible c) ∧
    ((∀ form env, Keeps leading (run form env)) →
      ∀ asked, optimize (within asked run) fuel t s = .ok t' s' → (∀ p, asked p = true → SameAnswer run s p) →
        Leads s s' ∧ ∀ u, Leads s u → ∃ u', optimize run fuel t' u = .ok t' u') ∧
    (∀ settings levels form env, Keeps leading (runner settings levels form env)) ∧
    (∀ steps, (∀ form env, Keeps leading (machineRunner steps form env)) ∧
      ∀ w p, SameAnswer (machineRunner steps) w p) := by
  have hresult : IsResult run t' := ⟨fuel, t, s, s', h⟩
  refine ⟨fun c hc => (hresult.evaluated hc).not_reducible, fun hrun asked hasked hsame => ?_, keeps_runner,
    fun steps => ⟨keeps_machineRunner steps, sameAnswer_machineRunner steps⟩⟩
  refine ⟨keeps_optimize hrun fuel t s t' s' h, fun u hu => ?_⟩
  obtain ⟨k, s₁, s₂, hk, hs₁, hself⟩ := exists_optimize_self (keeps_within hrun) hasked
  obtain ⟨-, u', -, hu'⟩ := repeats_optimize hrun hsame hk t' s₁ u t' s₂ hs₁ hu hself
  exact ⟨u', hu'⟩

/-- `(c (+ (q . 1) (q . 2)) (f 2))` becomes `(c (q . 3) 4)`, for which the runner is asked for the sum and for `(q . 3)`. -/
theorem optimize_normal_form_sum :
    let sum := SExp.ofList [.atom [Operator.add.code], Form.quote (.atom [1]), Form.quote (.atom [2])]
    let t := Form.cons sum (Form.first (.atom [2]))
    let t' := Form.cons (Form.quote (.atom [3])) (.atom [4])
    let s := Session.start .empty
    ∃ s', optimizeProgram t s = .ok t' s' ∧ (∀ c, Evaluated t' c → ¬Reducible c) ∧ Leads s s' ∧
      ∀ u, Leads s u → ∃ u', optimizeProgram t' u = .ok t' u' := by
  intro sum t t' s
  let three := Form.quote (.atom [3])
  let s' : Session := ⟨.empty, #[⟨.evaluateConstant, sum, three⟩, ⟨.mergePath, Form.first (.atom [2]), .atom [4]⟩,
    ⟨.optimizeChildren, t, t'⟩]⟩
  have hrun : optimizeProgram t s = .ok t' s' := rfl
  let asked : SExp → Bool := fun p => p == sum || p == three
  have hasked : optimize (within asked (standardRunner [])) Machine.ample t s = .ok t' s' := rfl
  have hsame : ∀ p, asked p = true → SameAnswer (standardRunner []) s p := by
    intro p hp
    simp only [asked, Bool.or_eq_true, beq_iff_eq] at hp
    rcases hp with rfl | rfl
    · exact sameAnswer_of_forall fun u => rfl
    · exact sameAnswer_of_forall fun u => rfl
  obtain ⟨hnormal, hagain, hkeeps, -⟩ := optimize_normal_form hrun
  exact ⟨s', hrun, hnormal, hagain (hkeeps _ _) asked hasked hsame⟩

/-! ### Programs that read what another optimisation left -/

/-- The program `(a (q . (c ONE (not TWO))) 2)` where `ONE` is `(a (i (l (_read (q . "main.sym"))) (q . (+ 1 1)) (q)) 1)`,
which is nil unless the symbol file holds a list, and `TWO` is `(com (q . (mod () (defconstant h 1) h)) (q))`. If the file
holds a list, `2` is moved into the body in vain, and in doing so the module is compiled, after which the file holds none. -/
def rereading : SExp :=
  let symbols := SExp.ofList [.atom Word.readFile, Form.quote (.atom (asciiBytes symbolFile))]
  let sum := SExp.ofList [.atom [Operator.add.code], .one, .one]
  let test := SExp.ofList [.atom [Operator.isList.code], symbols]
  let h : SExp := .atom (asciiBytes "h")
  let source := SExp.ofList [.atom Word.mod, .nil, .ofList [.atom Word.defineConstant, h, .one], h]
  let compiled := SExp.ofList [.atom Word.com, Form.quote source, Form.quote .nil]
  Form.apply (Form.quote (Form.cons (Form.apply (Form.choose test (Form.quote sum) (Form.quote .nil)) .one)
    (.ofList [.atom [Operator.not.code], compiled]))) (.atom [2])

/-- An optimised program may change when it is optimised again. -/
theorem optimizeProgram_not_idempotent :
    ¬ ∀ t t' s s', optimizeProgram t s = .ok t' s' → ∃ u, optimizeProgram t' s' = .ok t' u := by
  intro h
  let s : Session := .start { Store.empty with files := [([symbolFile], ⟨"(1)", 0⟩)] }
  let changes : Action Session Unit := do
    let t ← optimizeProgram rereading
    let t' ← optimizeProgram t
    if t' = t then throw .outOfFuel
  have hchanges : Action.isOk changes s = true := by decide +kernel
  obtain ⟨_, s₃, hchanges⟩ := Action.isOk_iff.mp hchanges
  obtain ⟨t, s₁, ht, hchanges⟩ := Action.bind_eq_ok.mp hchanges
  obtain ⟨t', s₂, ht', hchanges⟩ := Action.bind_eq_ok.mp hchanges
  obtain ⟨u, hu⟩ := h rereading t s s₁ ht
  cases ht'.symm.trans hu
  rw [if_pos rfl] at hchanges
  cases hchanges

end Clvm.Optimizer
