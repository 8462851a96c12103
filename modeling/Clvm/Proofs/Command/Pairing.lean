import Clvm.Command.Execute
import Clvm.Proofs.Action
import Clvm.Proofs.Serial

/-!
# Programs and environments given as bytes

Without a wrapper, the bytes of a program and those of its environment are read each on its own, and what follows the
first tree in either of them does not count. With a wrapper they are read as one pair. Then the bytes that the program
leaves over are read as the environment, in front of its own.
-/

namespace Clvm.Command.Execution
open Machine

/-! ### What is run -/

/-- The form that is run and its environment, as the texts give them. -/
def handed (x : Execution) : Except Error (SExp × SExp) := do
  x.subject (← x.inputBytes x.program) (← x.envBytes)

section Performing
variable [Curve]

/-- Runs a form on an environment, and gives the trace as well. -/
def runForm (x : Execution) (symbols : Option Symbols) (form env : SExp) : Action Session Machine.Run := fun s =>
  match x.watched symbols with
  | .ok watch =>
    let done := x.dialect.run x.directories x.limit x.strict watch form env s
    .ok { done.1 with outcome := x.settle done.1.outcome } done.2
  | .error e => .ok ⟨.error e, #[]⟩ s

/-- Runs a form on an environment, and prints what is asked for. -/
def performForm (x : Execution) (form env : SExp) : Action Console Ending := do
  let symbols ← inSession x.symbols?
  let run ← inSession (x.runForm symbols form env)
  let ending ← x.printOutcome run.outcome
  x.printTraces symbols run.log.toList
  ending

variable {x : Execution}

theorem runOwn_of_subject {program env : Bytes} {form arg : SExp} (h : x.subject program env = .ok (form, arg))
    (symbols : Option Symbols) : x.runOwn symbols program env = x.runForm symbols form arg := by
  funext s
  rw [runOwn, runForm, h]
  cases x.watched symbols <;> rfl

theorem perform_of_handed {other : OtherMachine} (hother : x.usesOther other = false) {form arg : SExp}
    (h : x.handed = .ok (form, arg)) : x.perform other = x.performForm form arg := by
  obtain ⟨program, hprogram, h⟩ := bind_eq_ok.mp h
  obtain ⟨env, henv, h⟩ := bind_eq_ok.mp h
  rw [perform, hprogram]
  simp only [performOn, performForm, henv, Action.lift_ok_bind, run, hother, Bool.false_eq_true, if_false,
    runOwn_of_subject h]

end Performing

/-! ### What bytes stand for -/

section
variable {dialect : Dialect} {wrapper : SExp} {program env : List Char} {args : Arguments Key} {P E : Bytes}

theorem handed_ofOptions (hhex : args.has .hex = true) (hgiven : env ≠ []) (hP : Text.bytesOfHex? program = some P)
    (hE : Text.bytesOfHex? env = some E) :
    (ofOptions dialect wrapper program env args).handed = (ofOptions dialect wrapper program env args).subject P E := by
  have hempty : env.isEmpty = false := by simpa using hgiven
  simp only [handed, inputBytes, envBytes, ofOptions, hhex, if_true, hP, hE, hempty, Bool.false_eq_true, if_false]
  rfl

theorem subject_machine {p e : SExp} (hp : SExp.deserialize P = .ok p) (he : SExp.deserialize E = .ok e) :
    (ofOptions .machine wrapper program env args).subject P E = .ok (p, e) := by
  simp only [subject, ofOptions, reduceCtorEq, if_false, hp, he]
  rfl

/-- With the compiler's operators a run is left to the other machine only if that is asked for. -/
theorem usesOther_compiler {other : OtherMachine} (h : (args.value? .backend).join ≠ some "rust") :
    (ofOptions .compiler wrapper program env args).usesOther other = false := by
  simp only [usesOther, ofOptions]
  split
  · rename_i hrust
    exact absurd hrust h
  · rfl
  · simp

theorem subject_compiler {p : SExp} {more : Bytes} (hp : SExp.deserializeWithRest P = .ok (p, more)) :
    (ofOptions .compiler wrapper program env args).subject P E =
      (fun e => (wrapper, .pair p e)) <$> SExp.deserialize (more ++ E) := by
  simp only [subject, ofOptions, if_true, SExp.deserialize_pair hp E]
  cases SExp.deserialize (more ++ E) <;> rfl

end

/-- With a wrapper, a program given as bytes is paired with what the bytes after it and those of the environment stand for
together. This is the environment of the machine alone as long as nothing follows the program. A tree that follows it
takes the place of any environment. What is run is this pair, unless the run is left to the machine of another library. -/
theorem handed_pair_iff [Curve] (wrapper : SExp) (program env : List Char) (args : Arguments Key) (P E more : Bytes)
    (p e : SExp) (hhex : args.has .hex = true) (hgiven : env ≠ [])
    (hP : Text.bytesOfHex? program = some P) (hE : Text.bytesOfHex? env = some E)
    (hp : SExp.deserializeWithRest P = .ok (p, more)) (he : SExp.deserialize E = .ok e) :
    let plain := ofOptions .machine wrapper program env args
    let wrapped := ofOptions .compiler wrapper program env args
    (plain.handed = .ok (p, e) ∧
      ∀ other, plain.usesOther other = false → plain.perform other = plain.performForm p e) ∧
    wrapped.handed = (fun e' => (wrapper, .pair p e')) <$> SExp.deserialize (more ++ E) ∧
    (wrapped.handed = .ok (wrapper, .pair p e) ↔ SExp.deserialize (more ++ E) = .ok e) ∧
    ((args.value? .backend).join ≠ some "rust" → ∀ other,
      (more = [] → wrapped.perform other = wrapped.performForm wrapper (.pair p e)) ∧
      ∀ e', SExp.deserialize more = .ok e' → wrapped.perform other = wrapped.performForm wrapper (.pair p e')) := by
  intro plain wrapped
  have hplain : plain.handed = .ok (p, e) :=
    (handed_ofOptions hhex hgiven hP hE).trans (subject_machine (SExp.deserialize_of_withRest hp) he)
  have hwrapped : wrapped.handed = (fun e' => (wrapper, .pair p e')) <$> SExp.deserialize (more ++ E) :=
    (handed_ofOptions hhex hgiven hP hE).trans (subject_compiler hp)
  have hread : ∀ {e' : SExp}, SExp.deserialize (more ++ E) = .ok e' → wrapped.handed = .ok (wrapper, .pair p e') := by
    intro e' he'
    rw [hwrapped, he']
    rfl
  refine ⟨⟨hplain, fun other hother => perform_of_handed hother hplain⟩, hwrapped, ⟨fun h => ?_, hread⟩,
    fun hbackend other => ?_⟩
  · obtain ⟨e', he', heq⟩ := map_eq_ok.mp (hwrapped.symm.trans h)
    cases heq
    exact he'
  · have hother : wrapped.usesOther other = false := usesOther_compiler hbackend
    refine ⟨?_, fun e' he' => perform_of_handed hother (hread (SExp.deserialize_append he' E))⟩
    rintro rfl
    exact perform_of_handed hother (hread he)

/-- Bytes after the environment do not count, with a wrapper or without. -/
theorem handed_pair_iff_rest_of_env :
    let wrapped := ofOptions .compiler Compiler.runProgram "ff 0180".toList "0305".toList ⟨[(.hex, none)], []⟩
    (Text.bytesOfHex? "ff 0180".toList = some [0xff, 1, 0x80] ∧ SExp.deserialize [3, 5] = .ok (.atom [3])) ∧
    ∀ other, wrapped.perform other =
      wrapped.performForm Compiler.runProgram (.pair (.pair (.atom [1]) .nil) (.atom [3])) := by
  have hP : Text.bytesOfHex? "ff 0180".toList = some [0xff, 1, 0x80] := by decide
  have he : SExp.deserialize [3, 5] = .ok (.atom [3]) := by decide
  obtain ⟨-, -, -, hwhole⟩ := handed_pair_iff Compiler.runProgram "ff 0180".toList "0305".toList ⟨[(.hex, none)], []⟩
    [0xff, 1, 0x80] [3, 5] [] (.pair (.atom [1]) .nil) (.atom [3]) (by decide) (by decide) hP (by decide) (by decide) he
  exact ⟨⟨hP, he⟩, fun other => (hwhole (by decide) other).1 rfl⟩

/-- A byte after the program is its environment with a wrapper, and the environment that is given is not read. -/
theorem handed_rest_of_program :
    (ofOptions .machine Compiler.runProgram "0105".toList "03".toList ⟨[(.hex, none)], []⟩).handed =
      .ok (.atom [1], .atom [3]) ∧
    (ofOptions .compiler Compiler.runProgram "0105".toList "03".toList ⟨[(.hex, none)], []⟩).handed =
      .ok (Compiler.runProgram, .pair (.atom [1]) (.atom [5])) := by
  constructor <;> decide

end Clvm.Command.Execution
