import Clvm.Build.File
import Clvm.Proofs.Compiler.ListMacro
import Clvm.Proofs.Compiler.Symbols
import Clvm.Proofs.Files
import Clvm.Proofs.Walk

/-!
# Compiling the files below a directory

All sources below a directory have one target. If nothing is there, the source that a walk finds first is compiled to it.
Then the target is newer than every other source, so that none of them is compiled. What is listed is the same name once for
each source.
-/

namespace Clvm.Build
open Compiler

theorem onStore_eq_ok {α : Type} {f : Store → Except Error α} {a : α} {s s' : Session} :
    Session.onStore f s = .ok a s' ↔ f s.store = .ok a ∧ s = s' := Action.ofExcept_eq_ok

/-! ### What compiling writes -/

theorem eq_of_hasPlace_symbolFile {store : Store} {p : Place} (h : store.HasPlace symbolFile p) : p = [symbolFile] := by
  rw [Store.HasPlace, resolve_symbolFile] at h
  cases hfile : store.fileAt? [symbolFile] with
  | some f =>
    rw [hfile] at h
    cases h
    rfl
  | none =>
    rw [hfile, Option.elim_none] at h
    split at h
    · cases h
    · cases h
      rfl

/-- Compiling writes the symbol file and no other. -/
def writing : Effect where
  rel s t := Store.WritesAt [[symbolFile]] s.store t.store
  refl s := .refl _ s.store
  trans := .trans
  record s _ _ := .refl _ s.store
  write s _ _ hwrite := by
    obtain ⟨-, p, hp, rfl⟩ := Store.write_eq_ok.mp hwrite
    obtain rfl := eq_of_hasPlace_symbolFile hp
    exact Store.writesAt_written hp.isOpen _

theorem compileSource_eq_ok [Curve] {search : List String} {text : List Char} {s s' : Session} {program : SExp} :
    compileSource search text s = .ok program s' ↔ ∃ tree cost, SExp.ofSource text = .ok tree ∧
      standardRunner search compileProgram (.pair tree .nil) s = .ok (cost, program) s' := by
  rw [compileSource]
  constructor
  · intro h
    obtain ⟨tree, s₁, hread, h⟩ := Action.bind_eq_ok.mp h
    obtain ⟨htree, rfl⟩ := Action.lift_eq_ok.mp hread
    obtain ⟨r, s₂, hrun, h⟩ := Action.bind_eq_ok.mp h
    obtain ⟨rfl, rfl⟩ := Action.pure_eq_ok.mp h
    exact ⟨tree, r.1, htree, hrun⟩
  · rintro ⟨tree, cost, htree, hrun⟩
    refine Action.bind_eq_ok.mpr ⟨tree, s, Action.lift_eq_ok.mpr ⟨htree, rfl⟩, ?_⟩
    exact Action.bind_eq_ok.mpr ⟨(cost, program), s', hrun, rfl⟩

theorem writesAt_compileSource [Curve] {search : List String} {text : List Char} {s s' : Session} {program : SExp}
    (h : compileSource search text s = .ok program s') : Store.WritesAt [[symbolFile]] s.store s'.store := by
  obtain ⟨tree, cost, -, hrun⟩ := compileSource_eq_ok.mp h
  exact keeps_runner (R := writing) _ _ _ _ s _ s' hrun

/-! ### One file -/

/-- The text that a program is written as. -/
def programText (program : SExp) : String := String.ofList (Bytes.toHex program.serialize ++ ['\n'])

section File
variable {search : List String} {source target : String} {s s₁ : Session}

theorem isOutdated_vacant {p : Place} (hallowed : FileName.isAllowed target = true)
    (h : s.store.resolve target = .vacant p) : isOutdated source target s = .ok true s := by
  have hmodified : s.store.modified target = .error .fileNotFound := by
    simp only [Store.modified, Store.find, hallowed, h]
    rfl
  refine Action.bind_eq_ok.mpr ⟨s, s, rfl, ?_⟩
  rw [hmodified]
  rfl

theorem isOutdated_files {made changed : File} (htarget : s.store.find target = .ok made)
    (hsource : s.store.find source = .ok changed) :
    isOutdated source target s = .ok (made.modified < changed.modified) s := by
  have hmade : s.store.modified target = .ok made.modified := by simp only [Store.modified, htarget]
  have hchanged : s.store.modified source = .ok changed.modified := by simp only [Store.modified, hsource]
  refine Action.bind_eq_ok.mpr ⟨s, s, rfl, ?_⟩
  rw [hmade]
  exact Action.bind_eq_ok.mpr ⟨changed.modified, s, onStore_eq_ok.mpr ⟨hchanged, rfl⟩, rfl⟩

theorem compileFile_vacant [Curve] {p : Place} {text : List Char} {program : SExp}
    (hallowed : FileName.isAllowed (FileName.plain target) = true)
    (hvacant : s.store.resolve (FileName.plain target) = .vacant p)
    (hread : s.store.read (FileName.plain source) = .ok text)
    (hcompile : compileSource search text s = .ok program s₁) :
    compileFile search source target s = .ok () { s₁ with store := s₁.store.written p (programText program) } := by
  have hplace := (writesAt_compileSource hcompile).names _ p (Store.hasPlace_of_vacant hvacant)
  have hwrite : s₁.store.write (FileName.plain target) (programText program) =
      .ok (s₁.store.written p (programText program)) := Store.write_eq_ok.mpr ⟨hallowed, p, hplace, rfl⟩
  refine Action.bind_eq_ok.mpr ⟨true, s, isOutdated_vacant hallowed hvacant, ?_⟩
  refine Action.bind_eq_ok.mpr ⟨text, s, onStore_eq_ok.mpr ⟨hread, rfl⟩, ?_⟩
  refine Action.bind_eq_ok.mpr ⟨program, s₁, hcompile, ?_⟩
  exact Action.bind_eq_ok.mpr ⟨_, s₁, onStore_eq_ok.mpr ⟨hwrite, rfl⟩, rfl⟩

theorem compileFile_recent [Curve] {made changed : File} (htarget : s.store.find (FileName.plain target) = .ok made)
    (hsource : s.store.find (FileName.plain source) = .ok changed) (hle : changed.modified ≤ made.modified) :
    compileFile search source target s = .ok () s := by
  have houtdated : isOutdated (FileName.plain source) (FileName.plain target) s = .ok false s := by
    rw [isOutdated_files htarget hsource, decide_eq_false (Int.not_lt.mpr hle)]
  exact Action.bind_eq_ok.mpr ⟨false, s, houtdated, rfl⟩

end File

/-! ### All files below a directory -/

theorem isAllowed_target {directory : String} (h : FileName.isAllowed directory = true) :
    FileName.isAllowed (FileName.plain (targetOf directory)) = true := by
  refine FileName.isAllowed_plain ?_
  have hhex : Char.ofNat 0 ∉ ".hex".toList := by decide
  simp only [FileName.isAllowed, Bool.not_eq_true', List.contains_eq_mem, decide_eq_false_iff_not, targetOf,
    String.toList_append, List.mem_append, not_or] at h ⊢
  exact ⟨h, hhex⟩

section Directory
variable [Curve] {directory : String} {s s₁ : Session}

theorem compileDirectory_eq (hallowed : FileName.isAllowed directory = true) (s : Session) :
    compileDirectory directory s = ((sourcesBelow s.store directory).mapM fun source =>
      (do compileFile [] source (targetOf directory); return targetOf directory : Action Session String)) s := by
  simp only [compileDirectory, hallowed]
  rfl

/-- What is listed is always the same target, once for each source. -/
theorem compileDirectory_lists {names : List String} {s' : Session} (h : compileDirectory directory s = .ok names s') :
    names = (sourcesBelow s.store directory).map fun _ => targetOf directory := by
  cases hallowed : FileName.isAllowed directory with
  | false =>
    simp only [compileDirectory, hallowed] at h
    cases h
  | true =>
    rw [compileDirectory_eq hallowed] at h
    refine Action.eq_map_of_mapM_eq_ok (fun source s name s' hname => ?_) h
    obtain ⟨-, s₁, -, hname⟩ := Action.bind_eq_ok.mp hname
    exact (Action.pure_eq_ok.mp hname).1.symm

/-- Only the first source is compiled. -/
theorem compileDirectory_of_first {first : String} {rest : List String} {place : Place} {text : List Char} {program : SExp}
    (hallowed : FileName.isAllowed directory = true) (hsources : sourcesBelow s.store directory = first :: rest)
    (hvacant : s.store.resolve (FileName.plain (targetOf directory)) = .vacant place) (hpast : s.store.IsPast)
    (hread : s.store.read (FileName.plain first) = .ok text) (hcompile : compileSource [] text s = .ok program s₁)
    (hrest : ∀ source ∈ rest, ∃ f, s.store.find (FileName.plain source) = .ok f) :
    ∃ s', compileDirectory directory s = .ok ((first :: rest).map fun _ => targetOf directory) s' ∧
      s'.store.find (FileName.plain (targetOf directory)) = .ok ⟨programText program, s₁.store.clock⟩ ∧
      s.store.WritesAt [place, [symbolFile]] s'.store := by
  have htarget := isAllowed_target hallowed
  have hcompiled := writesAt_compileSource hcompile
  have hplace := hcompiled.names _ place (Store.hasPlace_of_vacant hvacant)
  have hwritten := Store.writesAt_written hplace.isOpen (programText program)
  have hmade := Store.find_written htarget hplace (programText program)
  refine ⟨{ s₁ with store := s₁.store.written place (programText program) }, ?_, hmade,
    (hcompiled.mono (by simp)).trans (hwritten.mono (by simp))⟩
  -- The target is the last file that was written, so it is as new as any.
  have hskip : ∀ source ∈ rest, compileFile [] source (targetOf directory)
      { s₁ with store := s₁.store.written place (programText program) } =
        .ok () { s₁ with store := s₁.store.written place (programText program) } := by
    intro source hsource
    obtain ⟨f, hf⟩ := hrest source hsource
    obtain ⟨hsourceAllowed, p, hp, hfile⟩ := Store.find_eq_ok.mp hf
    have hstill := hwritten.files p (hcompiled.files p (Option.isSome_of_eq_some hfile))
    obtain ⟨f', hf'⟩ := Option.isSome_iff_exists.mp hstill
    have hbefore := hwritten.past (hcompiled.past hpast) p f' hf'
    have hfound := Store.find_eq_ok.mpr ⟨hsourceAllowed, p, hwritten.names _ p (hcompiled.names _ p hp), hf'⟩
    exact compileFile_recent hmade hfound (Int.le_of_lt_add_one hbefore)
  have hfirst := compileFile_vacant htarget hvacant hread hcompile
  rw [compileDirectory_eq hallowed, hsources, List.mapM_cons]
  refine Action.bind_eq_ok.mpr ⟨targetOf directory, _, Action.bind_eq_ok.mpr ⟨(), _, hfirst, rfl⟩, ?_⟩
  refine Action.bind_eq_ok.mpr ⟨rest.map fun _ => targetOf directory, _, ?_, rfl⟩
  exact Action.mapM_eq_ok_of_forall fun source hsource => Action.bind_eq_ok.mpr ⟨(), _, hskip source hsource, rfl⟩

end Directory

/-- A source that is compiled to a text, in a session. -/
def CompilesTo [Curve] (s : Session) (source text : String) : Prop :=
  ∃ content program s₁, s.store.read (FileName.plain source) = .ok content ∧
    compileSource [] content s = .ok program s₁ ∧ text = programText program

theorem CompilesTo.unique [Curve] {s : Session} {source text text' : String} (h : CompilesTo s source text)
    (h' : CompilesTo s source text') : text = text' := by
  obtain ⟨content, program, s₁, hread, hcompile, rfl⟩ := h
  obtain ⟨content', program', s₁', hread', hcompile', rfl⟩ := h'
  cases hread.symm.trans hread'
  cases hcompile.symm.trans hcompile'
  rfl

theorem CompilesTo.exists_find [Curve] {s : Session} {source text : String} (h : CompilesTo s source text) :
    ∃ f, s.store.find (FileName.plain source) = .ok f := by
  obtain ⟨content, program, s₁, hread, -⟩ := h
  obtain ⟨f, hf, -⟩ := Machine.bind_eq_ok.mp hread
  exact ⟨f, hf⟩

theorem exists_compileDirectory [Curve] {directory : String} {s : Session} {place : Place}
    (hallowed : FileName.isAllowed directory = true)
    (hvacant : s.store.resolve (FileName.plain (targetOf directory)) = .vacant place) (hpast : s.store.IsPast)
    (hcompiles : ∀ source ∈ sourcesBelow s.store directory, ∃ text, CompilesTo s source text) :
    ∃ s', compileDirectory directory s = .ok ((sourcesBelow s.store directory).map fun _ => targetOf directory) s' ∧
      s.store.WritesAt [place, [symbolFile]] s'.store ∧
      ∀ first ∈ (sourcesBelow s.store directory).head?,
        ∃ f, s'.store.find (FileName.plain (targetOf directory)) = .ok f ∧ CompilesTo s first f.text := by
  cases hsources : sourcesBelow s.store directory with
  | nil =>
    refine ⟨s, ?_, .refl _ _, fun first hfirst => by cases hfirst⟩
    rw [compileDirectory_eq hallowed, hsources]
    rfl
  | cons first rest =>
    rw [hsources] at hcompiles
    obtain ⟨text, content, program, s₁, hread, hcompile, rfl⟩ := hcompiles first List.mem_cons_self
    have hrest : ∀ source ∈ rest, ∃ f, s.store.find (FileName.plain source) = .ok f := by
      intro source hsource
      obtain ⟨text, htext⟩ := hcompiles source (List.mem_cons_of_mem first hsource)
      exact htext.exists_find
    obtain ⟨s', hdone, hmade, hwrites⟩ := compileDirectory_of_first hallowed hsources hvacant hpast hread hcompile hrest
    refine ⟨s', hdone, hwrites, fun source hsource => ?_⟩
    cases hsource
    exact ⟨_, hmade, content, program, s₁, hread, hcompile, rfl⟩

theorem compilesTo_of_runner [Curve] {s s₁ : Session} {source text : String} {content : List Char}
    {tree table program : SExp} {cost : Nat} (htable : defaultMacros = .ok table)
    (hread : s.store.read (FileName.plain source) = .ok content) (htree : SExp.ofSource content = .ok tree)
    (hrun : runner ⟨[], .ok table⟩ Machine.ample compileProgram (.pair tree .nil) s = .ok (cost, program) s₁)
    (htext : text = programText program) : CompilesTo s source text := by
  rw [← htable] at hrun
  exact ⟨content, program, s₁, hread, compileSource_eq_ok.mpr ⟨tree, cost, htree, hrun⟩, htext⟩

/-- The sources below a directory, each of which a walk finds once, have one target, which is listed once for each. If nothing
is there, no file is from the future and all sources compile, then compiling succeeds, and the target holds what the first
source on the walk compiles to. So each source finds there what it compiles to only if that is the same for all. Besides the
target only the symbol file may be written. -/
theorem compileDirectory_keeps_first [Curve] (directory : String) (s : Session) :
    let sources := sourcesBelow s.store directory
    let targets := sources.map fun _ => targetOf directory
    (∀ place, s.store.resolve directory = .directory place → sources.Perm (namesUnder s.store directory place)) ∧
    (∀ names s', compileDirectory directory s = .ok names s' → names = targets) ∧
    (targets.Nodup ↔ sources.length ≤ 1) ∧
    ∀ place, FileName.isAllowed directory = true →
      s.store.resolve (FileName.plain (targetOf directory)) = .vacant place → s.store.IsPast →
      (∀ source ∈ sources, ∃ text, CompilesTo s source text) →
      ∃ s', compileDirectory directory s = .ok targets s' ∧
        (∀ p, p ∉ [place, [symbolFile]] → s'.store.fileAt? p = s.store.fileAt? p) ∧
        ∀ first ∈ sources.head?, ∃ f, s'.store.find (FileName.plain (targetOf directory)) = .ok f ∧
          CompilesTo s first f.text ∧
          ((∀ source ∈ sources, CompilesTo s source f.text) ↔
            ∀ source ∈ sources, ∀ text, CompilesTo s source text → CompilesTo s first text) := by
  intro sources targets
  have hnodup : targets.Nodup ↔ sources.length ≤ 1 := by
    rw [show targets = List.replicate sources.length (targetOf directory) from List.map_const' .., List.nodup_replicate]
  have hfound : ∀ place, s.store.resolve directory = .directory place →
      sources.Perm (namesUnder s.store directory place) := by
    intro place hplace
    simp only [sources, sourcesBelow, hplace]
    exact walk_perm s.store directory place
  refine ⟨hfound, fun names s' h => compileDirectory_lists h, hnodup, fun place hallowed hvacant hpast hcompiles => ?_⟩
  obtain ⟨s', hdone, hwrites, hheld⟩ := exists_compileDirectory hallowed hvacant hpast hcompiles
  refine ⟨s', hdone, hwrites.others, fun first hfirst => ?_⟩
  obtain ⟨f, hf, hown⟩ := hheld first hfirst
  refine ⟨f, hf, hown, fun hall source hsource text htext => ?_, fun hsame source hsource => ?_⟩
  · rw [htext.unique (hall source hsource)]
    exact hown
  · obtain ⟨text, htext⟩ := hcompiles source hsource
    rw [hown.unique (hsame source hsource text htext)]
    exact htext

/-- Two sources in directories of different depths, of which the deeper is listed first. -/
def nested : Store :=
  ⟨[(["a", "b", "c", "z.clvm"], ⟨"3", 6⟩), (["a", "d", "y.clvm"], ⟨"1", 5⟩)], [], Store.presentTime⟩

/-- A directory is walked to its end before the next one is. -/
theorem compileDirectory_keeps_first_nested :
    sourcesBelow nested "a" = ["a/b/c/z.clvm", "a/d/y.clvm"] ∧
    CompilesTo (.start nested) "a/b/c/z.clvm" "03\n" ∧ CompilesTo (.start nested) "a/d/y.clvm" "01\n" ∧
    ∃ s' f, compileDirectory "a" (.start nested) = .ok ["a.hex", "a.hex"] s' ∧ s'.store.find "a.hex" = .ok f ∧
      f.text = "03\n" := by
  obtain ⟨table, htable, -⟩ := exists_defaultMacros
  have hsources : sourcesBelow nested "a" = ["a/b/c/z.clvm", "a/d/y.clvm"] := by decide +kernel
  have htree₁ : SExp.ofSource ['1'] = .ok (.atom [1]) := by decide +kernel
  have htree₃ : SExp.ofSource ['3'] = .ok (.atom [3]) := by decide +kernel
  have hdeep : CompilesTo (.start nested) "a/b/c/z.clvm" "03\n" :=
    compilesTo_of_runner htable (by decide) htree₃ rfl (by decide)
  have hother : CompilesTo (.start nested) "a/d/y.clvm" "01\n" :=
    compilesTo_of_runner htable (by decide) htree₁ rfl (by decide)
  have hplain : FileName.plain (targetOf "a") = "a.hex" := by decide
  have hrun := (compileDirectory_keeps_first "a" (.start nested)).2.2.2 ["a.hex"] (by decide) (by decide)
    (Store.isPast_of_forall (by decide))
  rw [show (Session.start nested).store = nested from rfl, hsources] at hrun
  obtain ⟨s', hdone, -, hheld⟩ := hrun (by simpa using ⟨⟨_, hdeep⟩, ⟨_, hother⟩⟩)
  obtain ⟨f, hf, hfirst, -⟩ := hheld "a/b/c/z.clvm" rfl
  rw [hplain] at hf
  exact ⟨hsources, hdeep, hother, s', f, hdone, hf, hfirst.unique hdeep⟩

/-- A second source beside the first. -/
def twoSources : Store := ⟨[(["a", "x.clvm"], ⟨"1", 5⟩), (["a", "y.clvm"], ⟨"3", 6⟩)], [], Store.presentTime⟩

/-- Of two sources, both listed with the same target, one is lost. -/
theorem compileDirectory_loses_second :
    CompilesTo (.start twoSources) "a/y.clvm" "03\n" ∧
    ∃ s' f, compileDirectory "a" (.start twoSources) = .ok ["a.hex", "a.hex"] s' ∧
      s'.store.find "a.hex" = .ok f ∧ f.text = "01\n" := by
  obtain ⟨table, htable, -⟩ := exists_defaultMacros
  have hsources : sourcesBelow (Session.start twoSources).store "a" = ["a/x.clvm", "a/y.clvm"] := by decide +kernel
  have htree₁ : SExp.ofSource ['1'] = .ok (.atom [1]) := by decide +kernel
  have htree₃ : SExp.ofSource ['3'] = .ok (.atom [3]) := by decide +kernel
  have hfirst : CompilesTo (.start twoSources) "a/x.clvm" "01\n" :=
    compilesTo_of_runner htable (by decide) htree₁ rfl (by decide)
  have hsecond : CompilesTo (.start twoSources) "a/y.clvm" "03\n" :=
    compilesTo_of_runner htable (by decide) htree₃ rfl (by decide)
  have hvacant : twoSources.resolve (FileName.plain (targetOf "a")) = .vacant ["a.hex"] := by decide
  have hplain : FileName.plain (targetOf "a") = "a.hex" := by decide
  obtain ⟨content, program, s₁, hread, hcompile, htext⟩ := hfirst
  obtain ⟨s', hdone, hmade, -⟩ := compileDirectory_of_first (by decide) hsources hvacant
    (Store.isPast_of_forall (by decide)) hread hcompile fun source hsource =>
      List.mem_singleton.mp hsource ▸ hsecond.exists_find
  rw [hplain] at hmade
  exact ⟨hsecond, s', _, hdone, hmade, htext.symm⟩

end Clvm.Build
