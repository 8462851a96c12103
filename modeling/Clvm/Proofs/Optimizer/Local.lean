import Clvm.Proofs.Compiler.Record
import Clvm.Proofs.Machine.Avoid

/-!
# Passes that look at one program

Most passes do not optimise anything inside a program. Those that take it apart keep its values. A constant program has
one outcome and one cost in all environments, so it may be replaced by what a runner answers once, if the answer is the
machine's. A path is merged with the turn that follows it, if its number can be read with a sign.
-/

namespace Clvm.Optimizer
open Machine Compiler

/-! ### Constant programs -/

theorem exec_eq_of_eval_eq {σ : Type} {ops : Operators σ} {form form' env env' : SExp}
    (h : eval ops form env = eval ops form' env') (w : σ) :
    (Config.plain ops).exec (.start form env) w = (Config.plain ops).exec (.start form' env') w := by
  have hlog : ∀ form env r, (Config.plain ops).exec (.start form env) w = some r → r.1.log = #[] := by
    intro form env r hr
    exact ends_log_plain (ends_of_exec hr) rfl
  have hw : ((Config.plain ops).exec (.start form env) w).map (fun r => (r.1.outcome, r.2)) =
      ((Config.plain ops).exec (.start form' env') w).map (fun r => (r.1.outcome, r.2)) := congrFun h w
  cases hleft : (Config.plain ops).exec (.start form env) w with
  | none =>
    rw [hleft, Option.map_none, eq_comm, Option.map_eq_none_iff] at hw
    exact hw.symm
  | some r =>
    rw [hleft, Option.map_some, eq_comm, Option.map_eq_some_iff] at hw
    obtain ⟨r', hright, hr'⟩ := hw
    rw [hright]
    have hleftLog := hlog form env r hleft
    have hrightLog := hlog form' env' r' hright
    obtain ⟨⟨outcome, log⟩, w₁⟩ := r
    obtain ⟨⟨outcome', log'⟩, w₁'⟩ := r'
    obtain ⟨rfl, rfl⟩ := Prod.mk.inj hr'
    subst hleftLog hrightLog
    rfl

section Passes
variable [Curve]

/-- A runner whose answers are values of the machine with its own operators. -/
def MachineAnswers (run : Runner) : Prop :=
  ∀ form env s cost v s', run form env s = .ok (cost, v) s' → valueOf form env = .ok v

theorem machineAnswers_machineRunner (fuel : Nat) : MachineAnswers (machineRunner fuel) := by
  intro form env s cost v s' h
  exact (valueOf_of_evaluate h).1

/-- The passes that neither optimise parts of a program nor merge paths. -/
def localPasses : List Pass := [.takeApart, .evaluateConstant, .unwrapApply, .dropQuotedNil, .dropAppliedNil]

section Local
variable {run : Runner} {opt : SExp → Action Session SExp} {t t' : SExp} {s s' : Session}

theorem evaluateConstant_preserves (hrun : MachineAnswers run) (h : evaluateConstant run t s = .ok t' s') :
    Preserves t t' := by
  rcases evaluateConstant_eq_ok h with ⟨rfl, -⟩ | ⟨hconst, cost, v, hv, rfl⟩
  · exact .refl t'
  · refine (quote_preserves_iff hconst).mpr fun w hw => ?_
    obtain rfl : v = w := Except.ok.inj ((hrun t .nil s cost v s' hv).symm.trans hw)
    rfl

theorem localPass_cases {pass : Pass} (hpass : pass ∈ localPasses) (h : applyPass run opt t pass s = .ok t' s') :
    Preserves t t' ∨ evaluateConstant run t s = .ok t' s' := by
  simp only [localPasses, List.mem_cons, List.not_mem_nil, or_false] at hpass
  rcases hpass with rfl | rfl | rfl | rfl | rfl
  · obtain ⟨rfl, -⟩ := Action.pure_eq_ok.mp h
    exact .inl (takeApart_preserves t)
  · exact .inr h
  · obtain ⟨rfl, -⟩ := Action.pure_eq_ok.mp h
    exact .inl (unwrapApply_preserves t)
  · obtain ⟨rfl, -⟩ := Action.pure_eq_ok.mp h
    exact .inl (dropQuotedNil_preserves t)
  · obtain ⟨rfl, -⟩ := Action.pure_eq_ok.mp h
    exact .inl (dropAppliedNil_preserves t)

theorem localPass_preserves (hrun : MachineAnswers run) {pass : Pass} (hpass : pass ∈ localPasses)
    (h : applyPass run opt t pass s = .ok t' s') : Preserves t t' := by
  rcases localPass_cases hpass h with hkeep | h
  · exact hkeep
  · exact evaluateConstant_preserves hrun h

/-- Whatever a runner answers, a constant program may be replaced by it just when it is the machine's value. -/
theorem evaluateConstant_preserves_iff (h : evaluateConstant run t s = .ok t' s') (hne : t' ≠ t) :
    ∃ cost v, run t .nil s = .ok (cost, v) s' ∧ t' = Form.quote v ∧
      (Preserves t t' ↔ ∀ w, valueOf t .nil = .ok w → v = w) := by
  rcases evaluateConstant_eq_ok h with ⟨rfl, -⟩ | ⟨hconst, cost, v, hv, rfl⟩
  · exact absurd rfl hne
  · refine ⟨cost, v, hv, rfl, (quote_preserves_iff hconst).trans (forall_congr' fun w => ?_)⟩
    exact imp_congr_right fun _ => ⟨fun heq => (SExp.pair.inj heq).2, fun heq => by rw [heq]⟩

end Local

/-! ### The runner of the compiler -/

/-- The words that are operators while the compiler runs. -/
def compilerWords : List Bytes := [Word.com, Word.opt, Word.fullPathForName, Word.readFile, Word.writeFile]

section Words
variable {settings : Settings} {run : Runner} {fuel : Nat}

theorem apply_of_not_mem_words {op : Bytes} (h : op ∉ compilerWords) (args : SExp) :
    (operators settings run fuel).apply op args = Operators.base.apply op args := by
  simp only [compilerWords, List.mem_cons, List.not_mem_nil, or_false, not_or] at h
  obtain ⟨hcom, hopt, hsearch, hread, hwrite⟩ := h
  simp only [Operators.apply, operators, if_neg hcom, if_neg hopt, if_neg hsearch, if_neg hread, if_neg hwrite]
  rfl

theorem includesBase_operators (settings : Settings) (run : Runner) (fuel : Nat) :
    IncludesBase (operators settings run fuel) := by
  intro op o ho args
  have hnone : ∀ word ∈ compilerWords, Operator.ofBytes? word = none := by decide
  have hmem : op ∉ compilerWords := by
    intro hmem
    rw [hnone op hmem] at ho
    cases ho
  rw [apply_of_not_mem_words hmem, includesBase_base op o ho]

theorem gives_operators : Gives (operators settings run fuel) (Operators.base.without compilerWords) := by
  intro op args r u h w
  by_cases hmem : op ∈ compilerWords
  · rw [apply_without_of_mem hmem] at h
    cases h
  · rw [apply_without_of_not_mem hmem, base_apply] at h
    rw [apply_of_not_mem_words hmem, base_apply]
    exact Action.ofExcept_eq_ok.mpr ⟨(Action.ofExcept_eq_ok.mp h).1, rfl⟩

theorem runner_unique {levels : Nat} {form env : SExp} {a b : Charged} {log : Array Entry} {s s' : Session}
    (h : (Config.plain (Operators.base.without compilerWords)).exec (.start form env) () = some (⟨.ok a, log⟩, ()))
    (hrun : runner settings levels form env s = .ok b s') : b = a := by
  cases levels with
  | zero => cases hrun
  | succ levels => exact gives_operators.evaluate_unique h hrun

/-- With the runner of the compiler, passes keep the values that a program comes to without the words of the compiler. -/
theorem localPass_of_avoids {levels : Nat} {opt : SExp → Action Session SExp} {t t' : SExp} {s s' : Session} {pass : Pass}
    (hpass : pass ∈ localPasses) (h : applyPass (runner settings levels) opt t pass s = .ok t' s') {env v : SExp}
    (hv : valueOf t env = .ok v) (hwords : Avoids (.plain Operators.base) compilerWords (.start t env) ()) :
    valueOf t' env = .ok v := by
  rcases localPass_cases hpass h with hkeep | h
  · exact hkeep env v hv
  · rcases evaluateConstant_eq_ok h with ⟨rfl, -⟩ | ⟨hconst, cost', v', hrun, rfl⟩
    · exact hv
    · obtain ⟨cost, log, hexec⟩ := exec_of_valueOf hv
      -- With the words refused, the program has its value in the environment that the pass runs it in, too.
      have hnil : (Config.plain (Operators.base.without compilerWords)).exec (.start t .nil) () =
          some (⟨.ok (cost, v), log⟩, ()) := by
        rw [exec_eq_of_eval_eq ((seemsConstant_spec _ t).1 hconst .nil env), exec_without hwords, hexec]
      cases runner_unique hnil hrun
      exact valueOf_formQuote v env

end Words

/-- The passes on one program keep its values, if constants are given by the machine. With the runner of the compiler they
keep those that the program comes to without applying a word of the compiler. Whatever runner is asked, a constant that it
changes keeps its value just when the answer is the machine's. A program that seems constant has the same outcome, at the
same cost, in every two environments, whatever operators there are and whatever state they work on. -/
theorem localPass_sound :
    (∀ run, MachineAnswers run → ∀ pass ∈ localPasses, ∀ opt t s t' s', applyPass run opt t pass s = .ok t' s' →
      ∀ env v, valueOf t env = .ok v → valueOf t' env = .ok v) ∧
    (∀ fuel, MachineAnswers (machineRunner fuel)) ∧
    (∀ settings levels, ∀ pass ∈ localPasses, ∀ opt t s t' s',
      applyPass (runner settings levels) opt t pass s = .ok t' s' →
        ∀ env v, valueOf t env = .ok v → Avoids (.plain Operators.base) compilerWords (.start t env) () →
          valueOf t' env = .ok v) ∧
    (∀ run t s t' s', evaluateConstant run t s = .ok t' s' → t' ≠ t →
      ∃ cost v, run t .nil s = .ok (cost, v) s' ∧ t' = Form.quote v ∧
        (Preserves t t' ↔ ∀ w, valueOf t .nil = .ok w → v = w)) ∧
    (∀ t, seemsConstant t = .ok true → ∀ (σ : Type) (ops : Operators σ) (w : σ) (env env' : SExp),
      (Config.plain ops).exec (.start t env) w = (Config.plain ops).exec (.start t env') w) := by
  refine ⟨fun run hrun pass hpass opt t s t' s' h => localPass_preserves hrun hpass h, machineAnswers_machineRunner,
    fun settings levels pass hpass opt t s t' s' h env v => localPass_of_avoids hpass h,
    fun run t s t' s' h hne => evaluateConstant_preserves_iff h hne, fun t ht σ ops w env env' => ?_⟩
  exact exec_eq_of_eval_eq ((seemsConstant_spec ops t).1 ht env env') w

end Passes

/-- The program `((c) () (q . 7))` does not evaluate its operands, and becomes `(q () q . 7)`. The operator 511 is unknown to
the machine and to the compiler, and `(511 (q . 2))` becomes the nil that both give. -/
theorem localPass_sound_lone :
    let t := SExp.pair (.pair (.atom Keyword.cons) .nil) (.ofList [.nil, Form.quote (.atom [7])])
    let v := SExp.pair .nil (Form.quote (.atom [7]))
    let u := SExp.ofList [.atom [1, 255], Form.quote (.atom [2])]
    (seemsConstant t = .ok true ∧
      applyPass (machineRunner 10) pure t .evaluateConstant (.start .empty) = .ok (Form.quote v) (.start .empty) ∧
      (∀ env w, valueOf t env = .ok w → valueOf (Form.quote v) env = .ok w) ∧
      ∀ env, (Config.plain (Operators.base (σ := Unit))).exec (.start t env) () = some (⟨.ok (140, v), #[]⟩, ())) ∧
    applyPass (runner ⟨[], .ok .nil⟩ 10) pure u .evaluateConstant (.start .empty) =
      .ok (Form.quote .nil) (.start .empty) ∧
    valueOf u .nil = .ok .nil ∧ Avoids (.plain Operators.base) compilerWords (.start u .nil) () ∧
    valueOf (Form.quote .nil) .nil = .ok .nil := by
  intro t v u
  have hconst : seemsConstant t = .ok true := rfl
  have hpass : applyPass (machineRunner 10) pure t .evaluateConstant (.start .empty) = .ok (Form.quote v) (.start .empty) := rfl
  have hnil : (Config.plain (Operators.base (σ := Unit))).exec (.start t .nil) () = some (⟨.ok (140, v), #[]⟩, ()) :=
    @exec_of_run Unit _ _ _ 10 nofun
  have hunknown : applyPass (runner ⟨[], .ok .nil⟩ 10) pure u .evaluateConstant (.start .empty) =
      .ok (Form.quote .nil) (.start .empty) := rfl
  have hvalue : valueOf u .nil = .ok .nil := @valueOf_of_run _ 10 u .nil (.ok (_, .nil)) rfl nofun
  have hwords : Avoids (.plain Operators.base) compilerWords (.start u .nil) () :=
    @avoids_of_avoidsWithin _ _ _ _ _ 10 rfl
  obtain ⟨hkeep, hrun, hcompiler, -, hsame⟩ := localPass_sound
  refine ⟨⟨hconst, hpass, hkeep _ (hrun 10) _ (by decide) _ _ _ _ _ hpass, fun env => ?_⟩, hunknown, hvalue, hwords,
    hcompiler _ _ _ (by decide) _ _ _ _ _ hunknown _ _ hvalue hwords⟩
  rw [hsame t hconst Unit Operators.base () env .nil, hnil]

/-- For the machine `com` is an unknown operator, and `(com (q . 5))` has the value nil. The runner of the compiler answers
the program that 5 compiles to, which is `(q . 5)`. -/
theorem localPass_changes_com :
    let t := SExp.ofList [.atom Word.com, Form.quote (.atom [5])]
    let t' := Form.quote (Form.quote (.atom [5]))
    applyPass (runner ⟨[], .ok .nil⟩ 10) pure t .evaluateConstant (.start .empty) = .ok t' (.start .empty) ∧
      ∀ env, valueOf t env = .ok .nil ∧ valueOf t' env = .ok (Form.quote (.atom [5])) := by
  refine ⟨rfl, fun env => ⟨?_, valueOf_formQuote _ env⟩⟩
  exact @valueOf_of_run _ 10 _ env (.ok (_, .nil)) rfl nofun

/-! ### Merged paths -/

/-- The first part and the rest of a place are merged to one path, if the signed number of the place keeps its width. The
path has the values of the program it replaces. It has more only where the place is zero, which has no parts. -/
theorem mergePath_sound [Curve] {b : Bytes} (hb : b ≠ [])
    (hwidth : 0 ≤ Bytes.toInt b ∨ Bytes.toInt b ≤ -(256 ^ (b.length - 1) : Nat)) :
    ∀ part ∈ [Form.first, Form.rest], ∃ p, mergePath (part (.atom b)) = .ok (.atom p) ∧
      (∀ env v, valueOf (part (.atom b)) env = .ok v → valueOf (.atom p) env = .ok v) ∧
      (Bytes.toNat b ≠ 0 → ∀ env v, valueOf (.atom p) env = .ok v → valueOf (part (.atom b)) env = .ok v) := by
  obtain ⟨x, xs, rfl⟩ := List.exists_cons_of_ne_nil hb
  intro part hpart
  simp only [List.mem_cons, List.not_mem_nil, or_false] at hpart
  rcases hpart with rfl | rfl
  · obtain ⟨p, hp, hvalue⟩ := extendPath_spec hwidth (q := .left) (by decide) placeAt_left_iff nofun
    refine ⟨p, hp, fun env v hv => ?_, fun hzero env v hv => ?_⟩
    · rw [valueOf_formFirst] at hv
      exact ((hvalue env v).mp hv).2
    · rw [valueOf_formFirst]
      exact (hvalue env v).mpr ⟨hzero, hv⟩
  · obtain ⟨p, hp, hvalue⟩ := extendPath_spec hwidth (q := .right) (by decide) placeAt_right_iff nofun
    refine ⟨p, hp, fun env v hv => ?_, fun hzero env v hv => ?_⟩
    · rw [valueOf_formRest] at hv
      exact ((hvalue env v).mp hv).2
    · rw [valueOf_formRest]
      exact (hvalue env v).mpr ⟨hzero, hv⟩

/-- The signed number of the byte 255 is negative, and `(r 255)` becomes the path 511 of two bytes. -/
theorem mergePath_sound_negative :
    Bytes.toInt [0xff] = -1 ∧ mergePath (Form.rest (.atom [0xff])) = .ok (.atom [0x01, 0xff]) ∧
      ∀ env v, valueOf (Form.rest (.atom [0xff])) env = .ok v ↔ valueOf (.atom [0x01, 0xff]) env = .ok v := by
  have hmerge : mergePath (Form.rest (.atom [0xff])) = .ok (.atom [0x01, 0xff]) := rfl
  obtain ⟨p, hp, hkeep, hback⟩ := mergePath_sound (b := [0xff]) nofun (by decide) Form.rest (by simp)
  obtain rfl : [0x01, 0xff] = p := SExp.atom.inj (Except.ok.inj (hmerge.symm.trans hp))
  exact ⟨by decide, hmerge, fun env v => ⟨hkeep env v, hback (by decide) env v⟩⟩

end Clvm.Optimizer
