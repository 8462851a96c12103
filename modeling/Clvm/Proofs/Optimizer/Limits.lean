import Clvm.Proofs.Compiler.Record
import Clvm.Toolchain

/-!
# Reductions that change values

Each way in which a reduction can fail to be faithful does change values: a path that loses its leading bytes leads
elsewhere, a place whose signed number is not positive is taken for the whole environment, and an operator in
parentheses is evaluated as if it were an operand, after which the program has no value at all.
-/

namespace Clvm.Optimizer
open Machine Compiler

/-! ### Paths that lose leading bytes -/

/-- The tree that holds `v` where some turns lead, and nil beside the way. -/
def wayTo (v : SExp) : List Bool → SExp
  | [] => v
  | false :: more => .pair (wayTo v more) .nil
  | true :: more => .pair .nil (wayTo v more)

theorem descend_wayTo (v : SExp) (xs ys : List Bool) : descend xs (wayTo v (xs ++ ys)) = .ok (wayTo v ys) := by
  induction xs with
  | nil => rfl
  | cons x xs ih => cases x <;> exact ih

theorem descend_wayTo_self (v : SExp) (xs : List Bool) : descend xs (wayTo v xs) = .ok v := by
  have h := descend_wayTo v xs []
  rwa [List.append_nil] at h

/-- The turns of a path that loses leading bytes go on, first to the rest, where those of the narrow path end. -/
theorem branches_narrow {b : Bytes} {p : Path} (hwidth : ¬Path.KeepsWidth b)
    (hp : Path.ofInt (Bytes.toInt b) = .ok p) :
    ∃ more, branches (Bytes.toNat b) = branches p.index ++ true :: more := by
  obtain ⟨j, hj, hindex, htop⟩ := Path.ofInt_toInt_narrow hwidth hp
  obtain ⟨a, ha⟩ : ∃ a, 8 * j = a + 1 := by
    refine ⟨8 * j - 1, ?_⟩
    rcases Nat.eq_zero_or_pos j with rfl | hpos
    · rw [pow_zero, Nat.mod_one] at hindex
      omega
    · omega
  rw [pow_256, ha] at hindex htop
  rw [pow_succ] at htop
  have hne : p.index ≠ 0 := by
    have := Nat.two_pow_pos a
    omega
  have hlow : 2 ^ a ≤ p.index := by omega
  have hhigh : p.index < 2 ^ (a + 1) := by
    rw [hindex]
    exact Nat.mod_lt _ (Nat.two_pow_pos _)
  have hlog : p.index.log2 = a := (Nat.log2_eq_iff hne).mpr ⟨hlow, hhigh⟩
  -- The wide number is at least half of what its width allows, which is far above the narrow one.
  have hwide : a + 1 ≤ (Bytes.toNat b).log2 := by
    have hneg : Bytes.isNegative b = true :=
      (Bytes.toInt_neg_iff b).mp (by simp only [Path.KeepsWidth, not_or, not_le] at hwidth; exact hwidth.1)
    have hhalf := ((Bytes.isNegative_iff b).mp hneg).1
    have hle : 2 ^ (a + 1 + 8) ≤ 256 ^ b.length := by
      rw [pow_256]
      exact Nat.pow_le_pow_right (by decide) (by omega)
    have : 2 ^ (a + 1) ≤ Bytes.toNat b := by
      rw [pow_add] at hle
      omega
    exact (Nat.le_log2 (by have := Nat.two_pow_pos (a + 1); omega)).mpr this
  obtain ⟨r, hr⟩ : ∃ r, (Bytes.toNat b).log2 = a + (1 + r) := ⟨(Bytes.toNat b).log2 - (a + 1), by omega⟩
  have hbit : Bytes.toNat b / 2 ^ a % 2 = 1 := by
    rw [← Nat.mod_mul_right_div_self, ← pow_succ, ← hindex]
    exact Nat.div_eq_of_lt_le (by omega) (by rw [pow_succ] at hhigh; omega)
  have hsame : lowBits a p.index = lowBits a (Bytes.toNat b) := by
    rw [← lowBits_mod a p.index, hindex, pow_succ, Nat.mod_mul_right_mod, lowBits_mod]
  refine ⟨lowBits r (Bytes.toNat b / 2 ^ a / 2), ?_⟩
  rw [branches, branches, hlog, hr, lowBits_add, hsame, Nat.add_comm 1 r, lowBits, hbit]
  rfl

theorem valueOf_extendPath_narrow [Curve] {b : Bytes} {p q : Path} {t : SExp} (hp : Path.ofInt (Bytes.toInt b) = .ok p)
    (hq : q.index ≠ 0) (h : extendPath b q = .ok t) (env : SExp) :
    valueOf t env = descend (branches p.index ++ branches q.index) env := by
  rw [extendPath, hp] at h
  cases h
  rw [valueOf_toSExp]
  show placeAt (q.index * 2 ^ p.index.log2 + p.index % 2 ^ p.index.log2) env = _
  rw [placeAt, if_neg (compose_ne_zero hq), branches_compose hq]

/-- Where the wide path leads to a pair, the narrow one stops on the way, at a pair of nil and the rest of the way. -/
theorem extendPath_narrow [Curve] {b : Bytes} {q : Path} {t : SExp} (hq : q.index ≠ 0) (hwidth : ¬Path.KeepsWidth b)
    (h : extendPath b q = .ok t) :
    ∃ env more, valueOf (.atom b) env = .ok (.pair .one .nil) ∧
      valueOf t env = descend (branches q.index) (.pair .nil (wayTo (.pair .one .nil) more)) := by
  cases hp : Path.ofInt (Bytes.toInt b) with
  | error e =>
    rw [extendPath, hp] at h
    cases h
  | ok p =>
    obtain ⟨more, hmore⟩ := branches_narrow hwidth hp
    refine ⟨wayTo (.pair .one .nil) (branches (Bytes.toNat b)), more, ?_, ?_⟩
    · have hzero : Bytes.toNat b ≠ 0 := by
        intro h0
        rw [h0] at hmore
        have := congrArg List.length hmore
        simp [branches, lowBits, Nat.log2_zero] at this
      rw [valueOf_path, placeAt, if_neg hzero, descend_wayTo_self]
    · rw [valueOf_extendPath_narrow hp hq h, hmore, descend_append, descend_wayTo, ok_bind]
      rfl

/-- Merging a path keeps values just when the path's signed number keeps its width. -/
theorem mergePath_preserves_iff [Curve] {t t' : SExp} (h : mergePath t = .ok t') (hne : t' ≠ t) :
    Preserves t t' ↔ Reduction.Faithful ⟨.mergePath, t, t'⟩ := by
  refine ⟨fun hkeep op b ht => ?_, fun hfaithful => mergePath_preserves hfaithful h⟩
  by_contra hwidth
  fun_cases mergePath t with
  | case1 x xs =>
    cases ht
    obtain ⟨env, more, hwide, hnarrow⟩ := extendPath_narrow (q := .left) (by decide) hwidth h
    have hv := hkeep env .one (by
      show valueOf (Form.first _) env = _
      rw [valueOf_formFirst, hwide, ok_bind]
      rfl)
    rw [hnarrow] at hv
    cases hv
  | case2 x xs =>
    cases ht
    obtain ⟨env, more, hwide, hnarrow⟩ := extendPath_narrow (q := .right) (by decide) hwidth h
    have hv := hkeep env .nil (by
      show valueOf (Form.rest _) env = _
      rw [valueOf_formRest, hwide, ok_bind]
      rfl)
    rw [hnarrow] at hv
    have hway : wayTo (.pair .one .nil) more = .nil := Except.ok.inj hv
    cases more with
    | nil => cases hway
    | cons right more => cases right <;> cases hway
  | case3 => exact hne (by simpa [mergePath] using h.symm)

/-! ### One round of passes -/

section Round
variable {run : Runner} {apply : Pass → Action Session SExp} {pass : Pass} {passes : List Pass} {t t' : SExp}
  {s s' : Session} {fuel : Nat}

theorem firstChange_skip (h : apply pass s = .ok t s') :
    firstChange apply t (pass :: passes) s = firstChange apply t passes s' := by
  simp only [firstChange, bind, EStateM.bind, h, ↓reduceIte]

theorem firstChange_hit (h : apply pass s = .ok t' s') (hne : t' ≠ t) :
    firstChange apply t (pass :: passes) s = .ok (some (pass, t')) s' := by
  simp only [firstChange, bind, EStateM.bind, h, if_neg hne]
  rfl

theorem firstChange_eq_none (h : firstChange apply t passes s = .ok none s') :
    ∀ p ∈ passes, ∃ s₁ s₂, apply p s₁ = .ok t s₂ := by
  induction passes generalizing s with
  | nil => exact nofun
  | cons p passes ih =>
    obtain ⟨t₁, s₁, hp, h⟩ := Action.bind_eq_ok.mp h
    split at h
    · rename_i heq
      subst heq
      rintro p' hp'
      rcases List.mem_cons.mp hp' with rfl | hp'
      · exact ⟨s, s₁, hp⟩
      · exact ih h p' hp'
    · cases h

theorem optimize_of_change {x y : SExp}
    (h : firstChange (applyPass run (optimize run fuel) (.pair x y)) (.pair x y) Pass.all s = .ok (some (pass, t')) s') :
    optimize run (fuel + 1) (.pair x y) s =
      optimize run fuel t' { s' with reductions := s'.reductions.push ⟨pass, .pair x y, t'⟩ } := by
  simp only [optimize, bind, EStateM.bind, h]
  rfl

end Round

/-! ### Places taken for the whole environment -/

/-- The program `(a (q . b) (f 2))`, of which the optimiser makes `4` when `b` is no positive number. -/
def readsAt (b : Bytes) : SExp := Form.apply (Form.quote (.atom b)) (Form.first (.atom [2]))

theorem optimize_readsAt {b : Bytes} (hb : Bytes.toInt b ≤ 0) (run : Runner) (fuel : Nat) (s : Session) :
    ∃ s', optimize run (fuel + 3) (readsAt b) s = .ok (.atom [4]) s' := by
  have hround : firstChange (applyPass run (optimize run (fuel + 2)) (readsAt b)) (readsAt b) Pass.all s =
      .ok (some (.changeVariables, Form.first (.atom [2]))) s := by
    rw [Pass.all, firstChange_skip rfl, firstChange_skip rfl, firstChange_skip rfl]
    refine firstChange_hit ?_ nofun
    show (Action.ofExcept (.ok (placeOf (Bytes.toInt b) (Form.first (.atom [2])))) >>= _) s = _
    rw [placeOf_whole hb]
    rfl
  have hpath : ∀ s₁, firstChange (applyPass run (optimize run (fuel + 1)) (Form.first (.atom [2])))
      (Form.first (.atom [2])) Pass.all s₁ = .ok (some (.mergePath, .atom [4])) s₁ := by
    intro s₁
    rw [Pass.all, firstChange_skip rfl, firstChange_skip rfl, firstChange_skip rfl, firstChange_skip rfl,
      firstChange_skip rfl]
    exact firstChange_hit rfl nofun
  exact ⟨_, (optimize_of_change hround).trans (optimize_of_change (hpath _))⟩

/-- Where the optimiser takes a place for the whole environment, the value changes. -/
theorem readsAt_not_preserved [Curve] {b : Bytes} (hb : Bytes.toInt b ≤ 0) : ¬Preserves (readsAt b) (.atom [4]) := by
  intro hkeep
  have hread : ∀ w v : SExp, valueOf (.atom b) w = .ok v → v = w := by
    intro w v hv
    have hfirst : valueOf (Form.first (.atom [2])) (.pair (.pair w .nil) .nil) = .ok w := by
      rw [valueOf_formFirst, valueOf_path]
      rfl
    have hv' : valueOf (readsAt b) (.pair (.pair w .nil) .nil) = .ok v := by
      rw [readsAt, valueOf_formApply, hfirst, ok_bind, valueOf_formQuote, ok_bind, hv]
    have h4 := hkeep _ _ hv'
    rw [valueOf_path] at h4
    exact (Except.ok.inj h4).symm
  -- The place of `b` in a tree that holds something else there.
  by_cases hzero : Bytes.toNat b = 0
  · have := hread .one .nil (by rw [valueOf_path, hzero]; rfl)
    cases this
  · have hway := hread (wayTo .one (branches (Bytes.toNat b))) .one (by
      rw [valueOf_path, placeAt, if_neg hzero, descend_wayTo_self])
    cases hbits : branches (Bytes.toNat b) with
    | nil =>
      have hone : Bytes.toNat b < 2 := by
        have hlog : (Bytes.toNat b).log2 = 0 := by rw [← length_lowBits (Bytes.toNat b).log2, ← branches, hbits]; rfl
        exact (Nat.log2_lt hzero).mp (by rw [hlog]; exact Nat.one_pos)
      have := Bytes.toInt_eq_toNat (b := b)
      obtain ⟨n, -, hsum, htwo⟩ := Path.toInt_eq_negSucc (b := b) (by omega)
      have hpow : 256 ^ b.length ≠ 2 := by
        cases b.length with
        | zero => decide
        | succ k => rw [pow_succ]; omega
      omega
    | cons right more =>
      rw [hbits] at hway
      cases right <;> cases hway

/-! ### Operators in parentheses -/

section Lone
variable {run : Runner} {fuel : Nat} {s s' : Session}

theorem dropQuotedNil_quote (v : SExp) :
    (v = .nil ∧ dropQuotedNil (Form.quote v) = .nil) ∨ (v ≠ .nil ∧ dropQuotedNil (Form.quote v) = Form.quote v) := by
  cases v with
  | pair x y => exact .inr ⟨nofun, rfl⟩
  | atom b =>
    cases b with
    | nil => exact .inl ⟨rfl, rfl⟩
    | cons x b => exact .inr ⟨nofun, rfl⟩

theorem applyPass_quote {opt : SExp → Action Session SExp} {v t' : SExp} {pass : Pass}
    (h : applyPass run opt (Form.quote v) pass s = .ok t' s') : t' = .nil ∨ ∃ v', t' = Form.quote v' := by
  have hsame : (pure (Form.quote v) : Action Session SExp) s = .ok t' s' → ∃ v', t' = Form.quote v' :=
    fun h => ⟨v, (Action.pure_eq_ok.mp h).1.symm⟩
  cases pass with
  | evaluateConstant =>
    rcases evaluateConstant_eq_ok h with ⟨h, -⟩ | ⟨-, _, v', -, h⟩
    · exact .inr ⟨v, h⟩
    · exact .inr ⟨v', h⟩
  | dropQuotedNil =>
    rcases dropQuotedNil_quote v with ⟨-, hv⟩ | ⟨-, hv⟩ <;> rw [applyPass, hv] at h
    · exact .inl (Action.pure_eq_ok.mp h).1.symm
    · exact .inr (hsame h)
  | takeApart => exact .inr (hsame h)
  | unwrapApply => exact .inr (hsame h)
  | changeVariables => exact .inr (hsame h)
  | optimizeChildren => exact .inr (hsame h)
  | mergePath => exact .inr (hsame h)
  | dropAppliedNil => exact .inr (hsame h)

/-- A quotation is optimised to nil or to a quotation of something else. -/
theorem optimize_quote {v t' : SExp} (h : optimize run fuel (Form.quote v) s = .ok t' s') :
    t' = .nil ∨ ∃ v', v' ≠ .nil ∧ t' = Form.quote v' := by
  induction fuel generalizing v s with
  | zero => cases h
  | succ fuel ih =>
    obtain ⟨change, s₁, hchange, h⟩ := Action.bind_eq_ok.mp h
    match change with
    | none =>
      obtain ⟨s₂, s₃, hdrop⟩ := firstChange_eq_none hchange .dropQuotedNil (by decide)
      have hsame : dropQuotedNil (Form.quote v) = Form.quote v := (Action.pure_eq_ok.mp hdrop).1
      rcases dropQuotedNil_quote v with ⟨-, hv⟩ | ⟨hv, -⟩
      · rw [hv] at hsame
        cases hsame
      · exact .inr ⟨v, hv, (Action.pure_eq_ok.mp h).1.symm⟩
    | some (pass, after) =>
      obtain ⟨_, s₂, -, h⟩ := Action.bind_eq_ok.mp h
      obtain ⟨-, s₃, hpass⟩ := firstChange_eq_some hchange
      rcases applyPass_quote hpass with rfl | ⟨v', rfl⟩
      · cases fuel with
        | zero => cases h
        | succ fuel => exact .inl (Action.pure_eq_ok.mp h).1.symm
      · exact ih h

/-- An operator without operands is taken for a constant, so it becomes nil or a quotation. -/
theorem optimize_lone {op : Bytes} {t' : SExp} (hop : op ≠ Keyword.raise)
    (h : optimize run fuel (.pair (.atom op) .nil) s = .ok t' s') :
    t' = .nil ∨ ∃ v', v' ≠ .nil ∧ t' = Form.quote v' := by
  by_cases hquote : op = Keyword.quote
  · subst hquote
    exact optimize_quote h
  · cases fuel with
    | zero => cases h
    | succ fuel =>
      obtain ⟨change, s₁, hchange, h⟩ := Action.bind_eq_ok.mp h
      have hsame : applyPass run (optimize run fuel) (.pair (.atom op) .nil) .takeApart s = .ok (.pair (.atom op) .nil) s := by
        rw [applyPass, show takeApart (.pair (.atom op) .nil) = .pair (.atom op) .nil by simp [takeApart, SExp.nil]]
        rfl
      have hconst : seemsConstant (.pair (.atom op) .nil) = .ok true := by
        simp only [seemsConstant, if_neg hquote, if_neg hop]
        rfl
      rw [Pass.all, firstChange_skip hsame] at hchange
      obtain ⟨t₁, s₂, heval, hchange⟩ := Action.bind_eq_ok.mp hchange
      rcases evaluateConstant_eq_ok heval with ⟨-, hnil⟩ | ⟨-, _, v, -, rfl⟩
      · cases hnil hconst
      · have hne : Form.quote v ≠ .pair (.atom op) .nil := fun heq => by
          cases heq
          exact hquote rfl
        rw [if_neg hne] at hchange
        cases hchange
        obtain ⟨_, s₃, -, h⟩ := Action.bind_eq_ok.mp h
        exact optimize_quote h

/-- Optimising the parts of a call of an operator in parentheses leaves a program without a value. -/
theorem optimizeChildren_lone [Curve] {t t' : SExp} (ht : isLoneCall t = true)
    (h : optimizeChildren (optimize run fuel) t s = .ok t' s') (env v : SExp) : valueOf t' env ≠ .ok v := by
  obtain ⟨op, operands, rfl, hop⟩ := isLoneCall_eq_true ht
  rw [optimizeChildren, if_neg (by intro hquote; cases hquote)] at h
  obtain ⟨parts, s₁, hparts, h⟩ := Action.bind_eq_ok.mp h
  obtain ⟨_, s₂, -, h⟩ := Action.bind_eq_ok.mp h
  obtain ⟨rfl, -⟩ := Action.pure_eq_ok.mp h
  rw [SExp.items, List.mapM_cons] at hparts
  obtain ⟨head, s₃, hhead, hparts⟩ := Action.bind_eq_ok.mp hparts
  obtain ⟨more, s₄, -, hparts⟩ := Action.bind_eq_ok.mp hparts
  obtain ⟨rfl, -⟩ := Action.pure_eq_ok.mp hparts
  rcases optimize_lone hop hhead with rfl | ⟨v', hv', rfl⟩
  · intro hv
    have hlist : valueOf (.pair (.atom []) (.ofList more)) env = .ok v := hv
    rw [valueOf_list (by decide)] at hlist
    obtain ⟨vs, -, hlist⟩ := bind_eq_ok.mp hlist
    cases hlist
  · intro hv
    have hpair : valueOf (.pair (.pair (.atom Keyword.quote) v') (.ofList more)) env = .ok v := hv
    rw [valueOf_not_lone fun op heq => hv' (SExp.pair.inj heq).2] at hpair
    cases hpair

end Lone

/-! ### The optimiser as a whole -/

/-- The machine's own answer to a constant program is faithful. -/
theorem faithful_of_machineRunner [Curve] {fuel cost : Nat} {t v : SExp} {s s' : Session}
    (h : machineRunner fuel t .nil s = .ok (cost, v) s') :
    Reduction.Faithful ⟨.evaluateConstant, t, Form.quote v⟩ := fun w hw => by
  rw [(valueOf_of_evaluate h).1] at hw
  rw [Except.ok.inj hw]

/-- A change of a pass that is not faithful keeps values only where there are none. -/
theorem faithful_of_preserves [Curve] {r : Reduction} (hmade : r.Made) (hpass : r.pass ≠ .changeVariables)
    (hkeep : Preserves r.before r.after) : r.Faithful ∨ ∀ env v, valueOf r.before env ≠ .ok v := by
  obtain ⟨pass, t, t'⟩ := r
  obtain ⟨hne, run, fuel, s, s', h⟩ := hmade
  cases pass with
  | changeVariables => exact absurd rfl hpass
  | evaluateConstant =>
    rcases evaluateConstant_eq_ok h with ⟨hsame, -⟩ | ⟨hconst, _, v, -, hv⟩
    · exact absurd hsame hne
    · obtain rfl : t' = Form.quote v := hv
      exact .inl ((quote_preserves_iff hconst).mp hkeep)
  | optimizeChildren =>
    cases hlone : isLoneCall t with
    | false => exact .inl hlone
    | true => exact .inr fun env v hv => optimizeChildren_lone hlone h env v (hkeep env v hv)
  | mergePath => exact .inl ((mergePath_preserves_iff (Action.ofExcept_eq_ok.mp h).1 hne).mp hkeep)
  | takeApart => exact .inl trivial
  | unwrapApply => exact .inl trivial
  | dropQuotedNil => exact .inl trivial
  | dropAppliedNil => exact .inl trivial

/-- An optimised program has the values of the program it was made from, if every reduction that was recorded is
faithful. Nothing less will do. A recorded reduction that is not faithful keeps values only where there are none, but
for changes of variables: there a place that is moved keeps its value just when it can be moved, and whatever place
has a number that is not positive, the program `(a (q . place) (f 2))` is optimised to one with other values. The
runner is any that keeps the record, such as that of the compiler or the machine itself, whose constants are always
faithful. -/
theorem optimize_preserves_of_faithful [Curve] {run : Runner} (hrun : KeepsRecord run) {fuel : Nat} {t t' : SExp}
    {s s' : Session} (h : optimize run fuel t s = .ok t' s') :
    ((∀ r ∈ s.recordedSince s', r.Faithful) → ∀ env v, valueOf t env = .ok v → valueOf t' env = .ok v) ∧
    (∀ r ∈ s.recordedSince s', r.pass ≠ .changeVariables → Preserves r.before r.after →
      r.Faithful ∨ ∀ env v, valueOf r.before env ≠ .ok v) ∧
    (∀ b env, Preserves (Form.apply (Form.quote (.atom b)) env) (placeOf (Bytes.toInt b) env) ↔ Movable env (.atom b)) ∧
    (∀ b, Bytes.toInt b ≤ 0 → ∃ after later, optimize run (fuel + 3) (readsAt b) s = .ok after later ∧
      ¬Preserves (readsAt b) after) ∧
    (∀ settings levels, KeepsRecord (runner settings levels)) ∧
    (∀ steps, KeepsRecord (machineRunner steps) ∧ ∀ form w cost v w', machineRunner steps form .nil w = .ok (cost, v) w' →
      Reduction.Faithful ⟨.evaluateConstant, form, Form.quote v⟩) := by
  refine ⟨preserves_of_faithful hrun h, fun r hr => faithful_of_preserves (made_of_recorded hrun h r hr),
    placeOf_preserves_iff, fun b hb => ?_, runner_keepsRecord,
    fun steps => ⟨machineRunner_keepsRecord steps, fun _ _ _ _ _ => faithful_of_machineRunner⟩⟩
  obtain ⟨later, hlater⟩ := optimize_readsAt hb run fuel s
  exact ⟨_, later, hlater, readsAt_not_preserved hb⟩

/-- `(c (a (q . (f 2)) (c 3 1)) (c (q . 1) (q . 2)))` becomes `(c 5 (q . (1 . 2)))`. -/
theorem optimize_preserves_sample :
    let t := Form.cons
      (Form.apply (Form.quote (Form.first (.atom [2]))) (Form.cons (.atom [3]) (.atom [1])))
      (Form.cons (Form.quote (.atom [1])) (Form.quote (.atom [2])))
    let t' := Form.cons (.atom [5]) (Form.quote (.pair (.atom [1]) (.atom [2])))
    ∃ s', optimize (machineRunner 10) 5 t (Session.start .empty) = .ok t' s' ∧
      (∀ r ∈ (Session.start .empty).recordedSince s', r.Faithful) ∧
      ∀ env v, valueOf t env = .ok v → valueOf t' env = .ok v := by
  intro t t'
  let call := Form.apply (Form.quote (Form.first (.atom [2]))) (Form.cons (.atom [3]) (.atom [1]))
  let constant := Form.cons (Form.quote (.atom [1])) (Form.quote (.atom [2]))
  let recorded : List Reduction :=
    [⟨.changeVariables, call, Form.first (.atom [3])⟩, ⟨.mergePath, Form.first (.atom [3]), .atom [5]⟩,
      ⟨.evaluateConstant, constant, Form.quote (.pair (.atom [1]) (.atom [2]))⟩, ⟨.optimizeChildren, t, t'⟩]
  have hrun : optimize (machineRunner 10) 5 t (Session.start .empty) = .ok t' ⟨.empty, recorded.toArray⟩ := rfl
  have hfaithful : ∀ r ∈ recorded, r.Faithful := by
    intro r hr
    simp only [recorded, List.mem_cons, List.not_mem_nil, or_false] at hr
    rcases hr with rfl | rfl | rfl | rfl
    · intro body env hcall
      cases hcall
      have hplace : 0 < Bytes.toInt [2] := by decide
      exact ⟨.inr ⟨.inl hplace, trivial⟩, fun moved hmoved => .inr (by cases hmoved; rfl)⟩
    · intro op b hb
      cases hb
      decide
    · exact faithful_of_machineRunner (show machineRunner 10 constant .nil (Session.start .empty) = .ok (_, _) _ from rfl)
    · exact rfl
  exact ⟨_, hrun, hfaithful, (optimize_preserves_of_faithful (machineRunner_keepsRecord 10) hrun).1 hfaithful⟩

/-- The program `(a (q) (f 2))` gives nil in `((7 . 8) . 9)`, and what it is optimised to gives seven. -/
theorem optimizeProgram_changes_value :
    let env := SExp.pair (.pair (.atom [7]) (.atom [8])) (.atom [9])
    valueOf (readsAt []) env = .ok .nil ∧
    ∃ t' s', optimizeProgram (readsAt []) (Session.start .empty) = .ok t' s' ∧ valueOf t' env = .ok (.atom [7]) := by
  refine ⟨?_, .atom [4], ?_⟩
  · rw [readsAt, valueOf_formApply, valueOf_formFirst, valueOf_path, valueOf_formQuote]
    exact valueOf_nil _
  · obtain ⟨s', h⟩ := optimize_readsAt (b := []) (by decide) (standardRunner []) (Machine.ample - 3) (Session.start .empty)
    exact ⟨s', h, valueOf_path [4] _⟩

end Clvm.Optimizer
