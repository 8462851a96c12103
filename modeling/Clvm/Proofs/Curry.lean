import Clvm.Curry
import Clvm.Proofs.Pattern
import Clvm.Proofs.Text

/-!
# Currying is partial application

The currying program wraps a function and the program that conses the bound arguments onto the environment. Its
binder walks along the arguments, so it succeeds exactly on lists that end in nil. The patterns of uncurrying find the
function and one argument after the other, so uncurrying accepts exactly what currying makes.
-/

namespace Clvm
open Machine

namespace Currying

/-- The program that conses arguments onto the environment. -/
def core (args : List SExp) : SExp := args.foldr (fun a rest => Form.cons (Form.quote a) rest) Form.env

/-- A function with its leading arguments bound: `(a (q . function) (c (q . a1) (c (q . a2) ... 1)))`. -/
def bound (function : SExp) (args : List SExp) : SExp := Form.apply (Form.quote function) (core args)

/-! ### The currying program -/

section Program
variable [Curve]

/-- The environment that the binder is run in, for the arguments that are left. -/
def binderEnv (args : SExp) : SExp := .ofList [.pair wrapper binder, args, Form.env]

/-- The program of the binder for one argument. -/
def binderStep : SExp :=
  Form.cons (Form.quote (.atom Keyword.cons))
    (Form.cons (Form.cons (Form.quote (.atom Keyword.quote)) (Form.path 9))
      (Form.cons
        (Form.apply (Form.path 6)
          (Form.cons (Form.path 2) (Form.cons (Form.path 13) (Form.cons (Form.path 11) .nil))))
        .nil))

theorem valueOf_binder (args : SExp) :
    valueOf binder (binderEnv args) =
      if args.isNil then .ok Form.env else valueOf binderStep (binderEnv args) := by
  have hargs : placeAt 5 (binderEnv args) = .ok args := rfl
  rw [binder, valueOf_formApply, valueOf_formEnv, ok_bind, valueOf_formChoose, valueOf_formQuote, valueOf_formQuote,
    valueOf_formPath, hargs]
  simp only [ok_bind]
  cases args.isNil with
  | true => exact valueOf_formPath 11 (binderEnv args)
  | false => rfl

theorem valueOf_binderStep_pair (x y : SExp) :
    valueOf binderStep (binderEnv (.pair x y)) =
      valueOf binder (binderEnv y) >>= fun rest => .ok (Form.cons (Form.quote x) rest) := by
  have h2 : placeAt 2 (binderEnv (.pair x y)) = .ok (.pair wrapper binder) := rfl
  have h6 : placeAt 6 (binderEnv (.pair x y)) = .ok binder := rfl
  have h9 : placeAt 9 (binderEnv (.pair x y)) = .ok x := rfl
  have h11 : placeAt 11 (binderEnv (.pair x y)) = .ok Form.env := rfl
  have h13 : placeAt 13 (binderEnv (.pair x y)) = .ok y := rfl
  simp only [binderStep, valueOf_formCons, valueOf_formApply, valueOf_formQuote, valueOf_formPath, valueOf_nil, ok_bind,
    h2, h6, h9, h11, h13]
  have henv : SExp.pair (.pair wrapper binder) (.pair y (.pair Form.env .nil)) = binderEnv y := rfl
  rw [henv]
  cases valueOf binder (binderEnv y) <;> rfl

theorem valueOf_binderStep_atom (b : Bytes) :
    valueOf binderStep (binderEnv (.atom b)) = .error (.eval .pathIntoAtom (.atom b)) := by
  have h11 : placeAt 11 (binderEnv (.atom b)) = .ok Form.env := rfl
  have h13 : placeAt 13 (binderEnv (.atom b)) = .error (.eval .pathIntoAtom (.atom b)) := rfl
  simp only [binderStep, valueOf_formCons, valueOf_formApply, valueOf_formPath, valueOf_nil, ok_bind, error_bind,
    h11, h13]

/-- The binder conses the arguments of a list, and runs into the leaf that ends anything else. -/
theorem valueOf_binder_eq (args : SExp) :
    valueOf binder (binderEnv args) =
      if args.terminator = [] then .ok (core args.items)
      else .error (.eval .pathIntoAtom (.atom args.terminator)) := by
  induction args with
  | atom b =>
    rw [valueOf_binder]
    cases b with
    | nil => rfl
    | cons x b => exact valueOf_binderStep_atom (x :: b)
  | pair x y _ ih =>
    rw [valueOf_binder]
    show valueOf binderStep (binderEnv (.pair x y)) = _
    rw [valueOf_binderStep_pair, ih]
    show _ = if y.terminator = [] then Except.ok (core (x :: y.items)) else _
    split <;> rfl

theorem valueOf_wrapper (binder' function args : SExp) :
    valueOf wrapper (.ofList [.pair wrapper binder', function, args]) =
      valueOf binder' (.ofList [.pair wrapper binder', args, Form.env]) >>= fun rest =>
        .ok (Form.apply (Form.quote function) rest) := by
  -- The wrapper finds itself in its environment, where it is data.
  generalize hw : SExp.pair wrapper binder' = code
  have h2 : placeAt 2 (.ofList [code, function, args]) = .ok code := rfl
  have h5 : placeAt 5 (.ofList [code, function, args]) = .ok function := rfl
  have h6 : placeAt 6 (.ofList [code, function, args]) = .ok binder' := by rw [← hw]; rfl
  have h11 : placeAt 11 (.ofList [code, function, args]) = .ok args := rfl
  simp only [wrapper, valueOf_formCons, valueOf_formApply, valueOf_formQuote, valueOf_formPath, valueOf_nil, ok_bind,
    h2, h5, h6, h11]
  have henv : SExp.pair code (.pair args (.ofList [Form.env])) = .ofList [code, args, Form.env] := rfl
  rw [henv]
  cases valueOf binder' (.ofList [code, args, Form.env]) <;> rfl

theorem valueOf_program (function args : SExp) :
    valueOf program (.pair function args) =
      valueOf binder (binderEnv args) >>= fun rest => .ok (Form.apply (Form.quote function) rest) := by
  have h4 : placeAt 4 (.pair (.pair wrapper binder) (.pair function args)) = .ok wrapper := rfl
  have h2 : placeAt 2 (.pair (.pair wrapper binder) (.pair function args)) = .ok (.pair wrapper binder) := rfl
  have h5 : placeAt 5 (.pair (.pair wrapper binder) (.pair function args)) = .ok function := rfl
  have h7 : placeAt 7 (.pair (.pair wrapper binder) (.pair function args)) = .ok args := rfl
  simp only [program, valueOf_formCons, valueOf_formApply, valueOf_formQuote, valueOf_formPath, valueOf_formEnv,
    valueOf_nil, ok_bind, h2, h4, h5, h7]
  exact valueOf_wrapper binder function args

end Program

/-! ### The patterns of uncurrying -/

section Patterns
open Pattern
variable {known found : Bindings} {name name' : String} {t : SExp}

/-- A hole takes the whole tree. -/
theorem matchTree_hole (hmark : Text.Utf8.encode name.toList ≠ treeMark) (hname : known.lookup name = none) :
    matchTree known (hole name) t = .ok (some (known ++ [(name, t)])) := by
  have hdiff : treeMark ≠ atomMark := by decide
  rw [hole, matchTree_name (.inr rfl) hmark (Text.decode?_encode _), String.ofList_toList, bindKey, hname,
    if_neg (fun h => hdiff h.1)]

theorem matchTree_atom {b : Bytes} : matchTree known (.atom b) t = .ok (some found) ↔ t = .atom b ∧ found = known := by
  cases t with
  | pair x y => simp [matchTree]
  | atom b' => simp [matchTree, eq_comm]

theorem lookup_pair (hne : name' ≠ name) (x y : SExp) :
    [(name, x)].lookup name' = none ∧ [(name, x), (name', y)].lookup name = some x ∧
      [(name, x), (name', y)].lookup name' = some y := by
  have hbeq : (name' == name) = false := by simpa using hne
  simp [List.lookup_cons, hbeq]

/-- The pattern of an operator with a constant and another program finds the two. -/
theorem parts?_onConstant {op : Bytes} (hatom : SExp.atom op ≠ .atom atomMark) (htree : SExp.atom op ≠ .atom treeMark)
    (hmark : Text.Utf8.encode name.toList ≠ treeMark) (hmark' : Text.Utf8.encode name'.toList ≠ treeMark) (hne : name' ≠ name)
    {x y : SExp} : parts? (onConstant op (hole name) (hole name')) name name' t = some (x, y) ↔ t = onConstant op x y := by
  have hpair : ∀ x y b, SExp.pair x y ≠ .atom b := nofun
  rw [parts?_eq_some]
  constructor
  · rintro ⟨found, hfound, hx, hy⟩
    obtain ⟨_, _, _, rfl, hhead, hoperands⟩ := (matchTree_pair_eq_some hatom htree).mp hfound
    obtain ⟨rfl, rfl⟩ := matchTree_atom.mp hhead
    obtain ⟨_, _, _, rfl, hconstant, hlast⟩ := (matchTree_pair_eq_some (hpair _ _ _) (hpair _ _ _)).mp hoperands
    obtain ⟨_, x', _, rfl, hquote, hhole⟩ := (matchTree_pair_eq_some (by decide) (by decide)).mp hconstant
    obtain ⟨rfl, rfl⟩ := matchTree_atom.mp hquote
    cases (matchTree_hole hmark rfl).symm.trans hhole
    obtain ⟨y', _, _, rfl, hhole, hend⟩ := (matchTree_pair_eq_some (hpair _ _ _) (hpair _ _ _)).mp hlast
    obtain ⟨hnone, hfirst, hsecond⟩ := lookup_pair hne x' y'
    cases (matchTree_hole hmark' hnone).symm.trans hhole
    obtain ⟨rfl, rfl⟩ := matchTree_atom.mp hend
    cases hfirst.symm.trans hx
    cases hsecond.symm.trans hy
    rfl
  · rintro rfl
    obtain ⟨hnone, hfirst, hsecond⟩ := lookup_pair hne x y
    refine ⟨[(name, x), (name', y)], ?_, hfirst, hsecond⟩
    refine (matchTree_pair_eq_some hatom htree).mpr ⟨_, _, [], rfl, matchTree_atom.mpr ⟨rfl, rfl⟩, ?_⟩
    refine (matchTree_pair_eq_some (hpair _ _ _) (hpair _ _ _)).mpr ⟨_, _, [(name, x)], rfl, ?_, ?_⟩
    · exact (matchTree_pair_eq_some (by decide) (by decide)).mpr
        ⟨_, _, [], rfl, matchTree_atom.mpr ⟨rfl, rfl⟩, matchTree_hole hmark rfl⟩
    · exact (matchTree_pair_eq_some (hpair _ _ _) (hpair _ _ _)).mpr
        ⟨_, _, _, rfl, matchTree_hole hmark' hnone, matchTree_atom.mpr ⟨rfl, rfl⟩⟩

theorem parts?_function {x y : SExp} :
    parts? functionPattern "function" "core" t = some (x, y) ↔ t = Form.apply (Form.quote x) y :=
  parts?_onConstant (by decide) (by decide) (by decide) (by decide) (by decide)

theorem parts?_argument {x y : SExp} :
    parts? argumentPattern "parm" "core" t = some (x, y) ↔ t = Form.cons (Form.quote x) y :=
  parts?_onConstant (by decide) (by decide) (by decide) (by decide) (by decide)

end Patterns
end Currying

/-! ### Currying and uncurrying -/

open Currying

/-- Currying gives the bound function of a list's items, and nothing for what is no list. -/
theorem curry_eq_ok_iff [Curve] {function args c : SExp} :
    (∃ cost, curry function args = .ok (cost, c)) ↔ args.terminator = [] ∧ c = bound function args.items := by
  have hvalue : valueOf program (.pair function args) =
      if args.terminator = [] then .ok (bound function args.items)
      else .error (.eval .pathIntoAtom (.atom args.terminator)) := by
    rw [valueOf_program, valueOf_binder_eq]
    split <;> rfl
  constructor
  · rintro ⟨cost, h⟩
    have hok := valueOf_of_ok h
    rw [hvalue] at hok
    split at hok
    · rename_i hend
      injection hok with hok
      exact ⟨hend, hok.symm⟩
    · cases hok
  · rintro ⟨hend, rfl⟩
    rw [if_pos hend] at hvalue
    exact ok_of_valueOf hvalue

theorem boundArguments_cons (x y : SExp) :
    boundArguments (Form.cons (Form.quote x) y) = (x :: (boundArguments y).1, (boundArguments y).2) := by
  rw [boundArguments]
  split
  · rename_i arg core hparts
    cases parts?_argument.mp hparts
    rfl
  · rename_i hnone
    rw [parts?_argument.mpr rfl] at hnone
    cases hnone

theorem boundArguments_env : boundArguments Form.env = ([], Form.env) := by
  rw [boundArguments]
  split
  · rename_i arg core hparts
    cases parts?_argument.mp hparts
  · rfl

theorem boundArguments_core (args : List SExp) : boundArguments (core args) = (args, Form.env) := by
  induction args with
  | nil => exact boundArguments_env
  | cons a args ih =>
    show boundArguments (Form.cons (Form.quote a) (core args)) = _
    rw [boundArguments_cons, ih]

theorem core_of_boundArguments {t : SExp} {args : List SExp} (h : boundArguments t = (args, Form.env)) :
    t = core args := by
  fun_induction boundArguments t generalizing args with
  | case1 t arg rest hparts as last hrest ih =>
    injection h with has hlast
    subst has hlast
    rw [parts?_argument.mp hparts, ih hrest]
    rfl
  | case2 t ht =>
    injection h with has ht'
    subst has ht'
    rfl

theorem ofList_items {t : SExp} (h : t.terminator = []) : SExp.ofList t.items = t := by
  have := SExp.ofListWith_items t
  rw [h] at this
  exact this

theorem uncurry_eq_some_iff {x function args : SExp} :
    uncurry x = some (function, args) ↔ args.terminator = [] ∧ x = bound function args.items := by
  simp only [uncurry, Option.bind_eq_bind, Option.bind_eq_some_iff, Prod.exists, parts?_function, Option.ite_none_right_eq_some,
    Option.some.injEq, Prod.mk.injEq]
  constructor
  · rintro ⟨function, rest, rfl, hlast, rfl, rfl⟩
    have hrest : rest = core (boundArguments rest).1 := core_of_boundArguments (Prod.ext rfl hlast)
    refine ⟨SExp.terminator_ofList _, ?_⟩
    rw [SExp.items_ofList, bound, ← hrest]
  · rintro ⟨hend, rfl⟩
    refine ⟨function, core args.items, rfl, ?_⟩
    rw [boundArguments_core]
    exact ⟨rfl, rfl, ofList_items hend⟩

theorem valueOf_core [Curve] (args : List SExp) (env : SExp) :
    valueOf (core args) env = .ok (.ofListWith env args) := by
  induction args with
  | nil => exact valueOf_formEnv env
  | cons a args ih =>
    show valueOf (Form.cons (Form.quote a) (core args)) env = _
    rw [valueOf_formCons, ih, valueOf_formQuote]
    rfl

theorem isList_iff (args : SExp) : (∃ as, args = .ofList as) ↔ args.terminator = [] := by
  constructor
  · rintro ⟨as, rfl⟩
    exact SExp.terminator_ofList as
  · intro hend
    exact ⟨args.items, (ofList_items hend).symm⟩

/-- Currying succeeds exactly on lists of arguments and gives the bound function, uncurrying is its exact
inverse, and a bound function does in an environment what the function does when the bound arguments stand in
front of it: the same value, the same failure, or no answer either. -/
theorem curry_is_partial_application [Curve] :
    (∀ function args, (∃ r, curry function args = .ok r) ↔ ∃ as, args = .ofList as) ∧
    (∀ function as, ∃ cost, curry function (.ofList as) = .ok (cost, bound function as)) ∧
    (∀ x function args, uncurry x = some (function, args) ↔ ∃ cost, curry function args = .ok (cost, x)) ∧
    (∀ function as env, valueOf (bound function as) env = valueOf function (.ofListWith env as)) := by
  refine ⟨fun function args => ?_, fun function as => ?_, fun x function args => ?_, fun function as env => ?_⟩
  · rw [isList_iff]
    constructor
    · rintro ⟨⟨cost, c⟩, h⟩
      exact (curry_eq_ok_iff.mp ⟨cost, h⟩).1
    · intro hend
      obtain ⟨cost, h⟩ := curry_eq_ok_iff.mpr ⟨hend, rfl⟩
      exact ⟨_, h⟩
  · refine curry_eq_ok_iff.mpr ⟨SExp.terminator_ofList as, ?_⟩
    rw [SExp.items_ofList]
  · rw [uncurry_eq_some_iff, curry_eq_ok_iff]
  · rw [bound, valueOf_formApply, valueOf_core, valueOf_formQuote]
    rfl

end Clvm
