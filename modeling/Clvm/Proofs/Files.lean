import Clvm.Files.Store
import Mathlib.Data.List.Basic

/-!
# Writing files

A name that leads to a file, or to where one can be made, has a place (`Target.place?`). Writing a file at a place changes no
other file, and makes no directory of a place that was none, as the directory above it is there already. So every name keeps
its place, whatever is written. Files that are all from before the clock still are.
-/

namespace Clvm.Store

/-! ### Files and directories after a write -/

section Put
variable (s : Store) (p q : Place) (f : File)

theorem lookup_replace (files : List (Place × File)) :
    (files.map fun (q, g) => if q = p then (q, f) else (q, g)).lookup q =
      if q = p then (files.lookup q).map fun _ => f else files.lookup q := by
  induction files with
  | nil => simp
  | cons e files ih =>
    obtain ⟨q', g⟩ := e
    have hhead : (if q' = p then (q', f) else (q', g)) = (q', if q' = p then f else g) := by split <;> rfl
    simp only [List.map_cons, List.lookup_cons, ih, hhead]
    cases hq : q == q' with
    | false => rfl
    | true =>
      obtain rfl := eq_of_beq hq
      by_cases hp : q = p <;> simp [hp]

theorem fileAt?_put : (s.put p f).fileAt? q = if q = p then some f else s.fileAt? q := by
  rw [put]
  split
  · rename_i hfile
    obtain ⟨g, hg⟩ := Option.isSome_iff_exists.mp hfile
    rw [fileAt?] at hg
    rw [fileAt?, lookup_replace]
    split
    · rename_i hq
      rw [hq, hg]
      rfl
    · rfl
  · rename_i hnone
    rw [Option.not_isSome_iff_eq_none, fileAt?] at hnone
    rw [fileAt?, List.lookup_append, List.lookup_cons]
    cases hq : q == p with
    | false =>
      rw [if_neg (by simpa using hq)]
      exact Option.or_none
    | true =>
      obtain rfl := eq_of_beq hq
      rw [hnone, if_pos rfl]
      rfl

variable {s p q}

theorem isDirectory_iff : s.isDirectory q = true ↔
    q = [] ∨ (∃ r ∈ s.directories, q <+: r) ∨ ∃ r, (s.fileAt? r).isSome ∧ q <+: r ∧ q.length < r.length := by
  have hfiles : (∃ e ∈ s.files, q <+: e.1 ∧ q.length < e.1.length) ↔
      ∃ r, (s.fileAt? r).isSome ∧ q <+: r ∧ q.length < r.length := by
    simp only [fileAt?, List.lookup_isSome_iff, beq_iff_eq]
    exact ⟨fun ⟨e, he, h⟩ => ⟨e.1, ⟨e, he, rfl⟩, h⟩, fun ⟨r, ⟨e, he, hr⟩, h⟩ => ⟨e, he, hr ▸ h⟩⟩
  rw [← hfiles]
  simp [isDirectory, or_assoc]

theorem isDirectory_above (h : s.isDirectory p = true) (hq : q <+: p) : s.isDirectory q = true := by
  rw [isDirectory_iff] at h ⊢
  rcases h with rfl | ⟨r, hr, hp⟩ | ⟨r, hr, hp, hlength⟩
  · exact .inl (List.prefix_nil.mp hq)
  · exact .inr (.inl ⟨r, hr, hq.trans hp⟩)
  · exact .inr (.inr ⟨r, hr, hq.trans hp, Nat.lt_of_le_of_lt hq.length_le hlength⟩)

theorem directories_put : (s.put p f).directories = s.directories := by
  rw [put]
  split <;> rfl

/-- A file makes no directories if the one that it is in is there. -/
theorem isDirectory_put (hp : s.isDirectory p.dropLast = true) : (s.put p f).isDirectory q = s.isDirectory q := by
  rw [Bool.eq_iff_iff]
  constructor
  · intro h
    rw [isDirectory_iff, directories_put] at h
    rcases h with h | h | ⟨r, hr, hq, hlength⟩
    · exact isDirectory_iff.mpr (.inl h)
    · exact isDirectory_iff.mpr (.inr (.inl h))
    · rw [fileAt?_put] at hr
      split at hr
      · rename_i hrp
        subst hrp
        have hlast : r.dropLast <+: r := List.dropLast_prefix r
        refine isDirectory_above hp (List.prefix_of_prefix_length_le hq hlast ?_)
        rw [List.length_dropLast]
        omega
      · exact isDirectory_iff.mpr (.inr (.inr ⟨r, hr, hq, hlength⟩))
  · intro h
    rw [isDirectory_iff] at h ⊢
    rw [directories_put]
    refine h.imp_right (.imp_right ?_)
    rintro ⟨r, hr, hq⟩
    refine ⟨r, ?_, hq⟩
    rw [fileAt?_put]
    split
    · rfl
    · exact hr

end Put

/-! ### Places of names -/

/-- A component that names a file or directory in the one before it. -/
structure IsName (c : String) : Prop where
  real : ¬(c = "" ∨ c = ".")
  down : c ≠ ".."
  fits : ¬c.utf8ByteSize > maxComponent

/-- Components that lead from a directory, through directories that are there, to a place where a file is or can be
made. -/
inductive Reaches (s : Store) : Place → List String → Place → Prop where
  | skip {here p : Place} {c : String} {cs : List String} (hc : c = "" ∨ c = ".") (h : Reaches s here cs p) :
      Reaches s here (c :: cs) p
  | up {here p : Place} {cs : List String} (hhere : here.isEmpty = false) (h : Reaches s here.dropLast cs p) :
      Reaches s here (".." :: cs) p
  | down {here p : Place} {c : String} {cs : List String} (hc : IsName c) (hfile : s.fileAt? (here ++ [c]) = none)
      (hdirectory : s.isDirectory (here ++ [c]) = true) (h : Reaches s (here ++ [c]) cs p) : Reaches s here (c :: cs) p
  | last {here : Place} {c : String} (hc : IsName c)
      (hopen : s.fileAt? (here ++ [c]) = none → s.isDirectory (here ++ [c]) = false) : Reaches s here [c] (here ++ [c])

/-- What is at a place, if it is no directory. -/
def targetAt (s : Store) (p : Place) : Target := (s.fileAt? p).elim (.vacant p) (.file p)

/-- The place of a file, or where one can be made. -/
def Target.place? : Target → Option Place
  | .file p _ => some p
  | .vacant p => some p
  | _ => none

section Follow
variable {s : Store} {here p q : Place} {cs : List String}

theorem follow_name {c : String} (hc : IsName c) : s.follow here (c :: cs) =
    (s.fileAt? (here ++ [c])).elim
      (if s.isDirectory (here ++ [c]) then s.follow (here ++ [c]) cs
        else if cs.isEmpty then .vacant (here ++ [c]) else .missing)
      (fun f => if cs.isEmpty then .file (here ++ [c]) f else .belowFile) := by
  rw [follow, if_neg hc.real, if_neg hc.down, if_neg hc.fits]
  dsimp only
  cases s.fileAt? (here ++ [c]) <;> rfl

theorem Reaches.follow_eq (h : s.Reaches here cs p) : s.follow here cs = s.targetAt p := by
  induction h with
  | skip hc _ ih => rw [follow, if_pos hc, ih]
  | up hhere _ ih => rw [follow, if_neg (by decide), if_pos rfl, if_neg (by simp [hhere]), ih]
  | down hc hfile hdirectory _ ih =>
    rw [follow_name hc, hfile, Option.elim_none, if_pos hdirectory, ih]
  | @last here c hc hopen =>
    rw [follow_name hc, targetAt]
    cases hfile : s.fileAt? (here ++ [c]) with
    | some f => rfl
    | none => simp [hopen hfile]

theorem reaches_of_place? (h : (s.follow here cs).place? = some p) : s.Reaches here cs p := by
  induction cs generalizing here with
  | nil => cases h
  | cons c cs ih =>
    by_cases hskip : c = "" ∨ c = "."
    · rw [follow, if_pos hskip] at h
      exact .skip hskip (ih h)
    by_cases hup : c = ".."
    · subst hup
      rw [follow, if_neg hskip, if_pos rfl] at h
      split at h
      · cases h
      · rename_i hhere
        exact .up (by simpa using hhere) (ih h)
    by_cases hlong : c.utf8ByteSize > maxComponent
    · rw [follow, if_neg hskip, if_neg hup, if_pos hlong] at h
      cases h
    have hc : IsName c := ⟨hskip, hup, hlong⟩
    rw [follow_name hc] at h
    cases hfile : s.fileAt? (here ++ [c]) with
    | some f =>
      rw [hfile, Option.elim_some] at h
      split at h
      · rename_i hlast
        obtain rfl := List.isEmpty_iff.mp hlast
        cases h
        exact .last hc fun hnone => by rw [hfile] at hnone; cases hnone
      · cases h
    | none =>
      rw [hfile, Option.elim_none] at h
      split at h
      · rename_i hdirectory
        exact .down hc hfile hdirectory (ih h)
      · rename_i hdirectory
        split at h
        · rename_i hlast
          obtain rfl := List.isEmpty_iff.mp hlast
          cases h
          exact .last hc fun _ => by simpa using hdirectory
        · cases h

/-- A place where a file is or can be made: it is in a directory, and is none itself. -/
structure IsOpen (s : Store) (p : Place) : Prop where
  parent : s.isDirectory p.dropLast = true
  free : s.fileAt? p = none → s.isDirectory p = false

theorem Reaches.isOpen (h : s.Reaches here cs p) (hhere : s.isDirectory here = true) : s.IsOpen p := by
  induction h with
  | skip _ _ ih => exact ih hhere
  | @up here _ _ _ _ ih =>
    have hlast : here.dropLast <+: here := List.dropLast_prefix here
    exact ih (isDirectory_above hhere hlast)
  | down _ _ hdirectory _ ih => exact ih hdirectory
  | last _ hopen => exact ⟨by rwa [List.dropLast_concat], hopen⟩

end Follow

/-! ### Writing -/

/-- A store after a text was written at a place. -/
def written (s : Store) (p : Place) (text : String) : Store := { s.put p ⟨text, s.clock⟩ with clock := s.clock + 1 }

/-- A name has a place if it leads to a file there, or if one can be made. -/
def HasPlace (s : Store) (name : String) (p : Place) : Prop := (s.resolve name).place? = some p

section Written
variable {s t : Store} {name text : String} {here p q : Place} {cs : List String}

theorem fileAt?_written : (s.written p text).fileAt? q = if q = p then some ⟨text, s.clock⟩ else s.fileAt? q :=
  fileAt?_put s p q _

theorem Reaches.written (h : s.Reaches here cs q) (hp : s.IsOpen p) : (s.written p text).Reaches here cs q := by
  have hdirectory (r : Place) : (s.written p text).isDirectory r = s.isDirectory r := isDirectory_put _ hp.parent
  induction h with
  | skip hc _ ih => exact .skip hc ih
  | up hhere _ ih => exact .up hhere ih
  | @down here _ c _ hc hfile hthere _ ih =>
    have hne : here ++ [c] ≠ p := by
      rintro rfl
      rw [hp.free hfile] at hthere
      cases hthere
    refine .down hc ?_ ((hdirectory _).trans hthere) ih
    rw [fileAt?_written, if_neg hne, hfile]
  | last hc hopen =>
    refine .last hc fun hnone => (hdirectory _).trans ?_
    rw [fileAt?_written] at hnone
    split at hnone
    · cases hnone
    · exact hopen hnone

theorem hasPlace_iff : s.HasPlace name p ↔ ¬name.utf8ByteSize > maxName ∧
    ¬(name = "" ∨ FileName.isAbsolute name = true) ∧ s.Reaches [] (FileName.components name) p := by
  rw [HasPlace, resolve]
  split_ifs with hlong hnowhere
  · simp [Target.place?, hlong]
  · simp [Target.place?, hnowhere]
  · have hplace : (s.targetAt p).place? = some p := by
      rw [targetAt]
      cases s.fileAt? p <;> rfl
    exact ⟨fun h => ⟨hlong, hnowhere, reaches_of_place? h⟩, fun h => by rw [h.2.2.follow_eq, hplace]⟩

theorem hasPlace_of_vacant (h : s.resolve name = .vacant p) : s.HasPlace name p := by
  rw [HasPlace, h]
  rfl

theorem HasPlace.resolve_eq (h : s.HasPlace name p) : s.resolve name = s.targetAt p := by
  obtain ⟨hlong, hnowhere, hreaches⟩ := hasPlace_iff.mp h
  rw [resolve, if_neg hlong, if_neg hnowhere, hreaches.follow_eq]

theorem HasPlace.isOpen (h : s.HasPlace name p) : s.IsOpen p := (hasPlace_iff.mp h).2.2.isOpen rfl

theorem HasPlace.written (h : s.HasPlace name q) (hp : s.IsOpen p) : (s.written p text).HasPlace name q := by
  obtain ⟨hlong, hnowhere, hreaches⟩ := hasPlace_iff.mp h
  exact hasPlace_iff.mpr ⟨hlong, hnowhere, hreaches.written hp⟩

theorem write_eq_ok : s.write name text = .ok t ↔
    FileName.isAllowed name = true ∧ ∃ p, s.HasPlace name p ∧ t = s.written p text := by
  rw [write]
  cases hallowed : FileName.isAllowed name with
  | false => simp
  | true =>
    simp only [HasPlace]
    cases s.resolve name <;> simp [Target.place?, Store.written, eq_comm]

theorem resolve_eq_file {f : File} : s.resolve name = .file p f ↔ s.HasPlace name p ∧ s.fileAt? p = some f := by
  constructor
  · intro h
    have hplace : s.HasPlace name p := by
      rw [HasPlace, h]
      rfl
    rw [hplace.resolve_eq, targetAt] at h
    refine ⟨hplace, ?_⟩
    cases hfile : s.fileAt? p with
    | none =>
      rw [hfile] at h
      cases h
    | some g =>
      rw [hfile] at h
      cases h
      rfl
  · rintro ⟨hplace, hfile⟩
    rw [hplace.resolve_eq, targetAt, hfile]
    rfl

theorem find_eq_ok {f : File} : s.find name = .ok f ↔
    FileName.isAllowed name = true ∧ ∃ p, s.HasPlace name p ∧ s.fileAt? p = some f := by
  rw [find]
  cases hallowed : FileName.isAllowed name with
  | false => simp
  | true =>
    simp only [← resolve_eq_file]
    cases s.resolve name <;> simp

theorem find_written (hallowed : FileName.isAllowed name = true) (hp : s.HasPlace name p) (text : String) :
    (s.written p text).find name = .ok ⟨text, s.clock⟩ := by
  refine find_eq_ok.mpr ⟨hallowed, p, hp.written hp.isOpen, ?_⟩
  rw [fileAt?_written, if_pos rfl]

/-- All files are from before the next write. -/
def IsPast (s : Store) : Prop := ∀ p f, s.fileAt? p = some f → f.modified < s.clock

theorem isPast_of_forall (h : ∀ e ∈ s.files, e.2.modified < s.clock) : s.IsPast := by
  intro p f hf
  obtain ⟨before, after, hfiles, -⟩ := List.lookup_eq_some_iff.mp hf
  exact h (p, f) (by rw [hfiles]; exact List.mem_append_right _ List.mem_cons_self)

theorem IsPast.written (h : s.IsPast) : (s.written p text).IsPast := by
  intro q f hf
  rw [fileAt?_written] at hf
  split at hf
  · cases hf
    exact Int.lt_succ s.clock
  · exact Int.lt_trans (h q f hf) (Int.lt_succ s.clock)

/-- What stays the same if files are written at some places: where names lead, all other files, and that files are there
and from the past. -/
structure WritesAt (ps : List Place) (s t : Store) : Prop where
  names : ∀ name p, s.HasPlace name p → t.HasPlace name p
  others : ∀ p, p ∉ ps → t.fileAt? p = s.fileAt? p
  files : ∀ p, (s.fileAt? p).isSome = true → (t.fileAt? p).isSome = true
  past : s.IsPast → t.IsPast

theorem WritesAt.refl (ps : List Place) (s : Store) : WritesAt ps s s :=
  ⟨fun _ _ h => h, fun _ _ => rfl, fun _ h => h, fun h => h⟩

theorem WritesAt.trans {ps : List Place} {u : Store} (h₁ : WritesAt ps s t) (h₂ : WritesAt ps t u) : WritesAt ps s u where
  names name p h := h₂.names name p (h₁.names name p h)
  others p hp := (h₂.others p hp).trans (h₁.others p hp)
  files p h := h₂.files p (h₁.files p h)
  past h := h₂.past (h₁.past h)

theorem WritesAt.mono {ps qs : List Place} (h : WritesAt ps s t) (hps : ps ⊆ qs) : WritesAt qs s t :=
  { h with others := fun p hp => h.others p fun hmem => hp (hps hmem) }

theorem writesAt_written (hp : s.IsOpen p) (text : String) : WritesAt [p] s (s.written p text) where
  names _ _ h := h.written hp
  others q hq := by rw [fileAt?_written, if_neg (List.ne_of_not_mem_cons hq)]
  files q hq := by
    rw [fileAt?_written]
    split
    · rfl
    · exact hq
  past h := h.written

end Written

end Clvm.Store

/-! ### Plain names -/

namespace Clvm.Text

theorem mem_join {sep : List Char} {pieces : List (List Char)} {c : Char} (h : c ∈ join sep pieces) :
    c ∈ sep ∨ ∃ piece ∈ pieces, c ∈ piece := by
  induction pieces with
  | nil => cases h
  | cons piece pieces ih =>
    cases pieces with
    | nil => exact .inr ⟨piece, List.mem_singleton_self piece, h⟩
    | cons next pieces =>
      rcases List.mem_append.mp h with h | h
      · rcases List.mem_append.mp h with h | h
        · exact .inr ⟨piece, List.mem_cons_self, h⟩
        · exact .inl h
      · obtain h | ⟨other, hother, hc⟩ := ih h
        · exact .inl h
        · exact .inr ⟨other, List.mem_cons_of_mem piece hother, hc⟩

theorem mem_join_of_mem (sep : List Char) {pieces : List (List Char)} {piece : List Char} {c : Char}
    (hpiece : piece ∈ pieces) (hc : c ∈ piece) : c ∈ join sep pieces := by
  induction pieces with
  | nil => cases hpiece
  | cons other pieces ih =>
    cases pieces with
    | nil =>
      obtain rfl := List.mem_singleton.mp hpiece
      exact hc
    | cons next pieces =>
      rcases List.mem_cons.mp hpiece with rfl | hpiece
      · exact List.mem_append_left _ (List.mem_append_left _ hc)
      · exact List.mem_append_right _ (ih hpiece)

end Clvm.Text

namespace Clvm.FileName

theorem mem_of_mem_plain {name : String} {c : Char} (h : c ∈ (plain name).toList) :
    c = '/' ∨ c = '.' ∨ c ∈ name.toList := by
  have hbody : c ∈ Text.join ['/'] ((steps name).map String.toList) → c = '/' ∨ c ∈ name.toList := by
    intro h
    refine (Text.mem_join h).imp List.mem_singleton.mp ?_
    rintro ⟨piece, hpiece, hc⟩
    obtain ⟨step, hstep, rfl⟩ := List.mem_map.mp hpiece
    obtain ⟨text, htext, rfl⟩ := List.mem_map.mp (List.mem_filter.mp hstep).1
    rw [String.toList_ofList] at hc
    rw [← Text.join_splitOn '/' name.toList]
    exact Text.mem_join_of_mem _ htext hc
  have hroot : "/".toList = ['/'] := by decide
  have hhere : ".".toList = ['.'] := by decide
  rw [plain, ofSteps] at h
  split_ifs at h
  · rw [String.toList_append, hroot, String.toList_ofList] at h
    rcases List.mem_append.mp h with h | h
    · exact .inl (List.mem_singleton.mp h)
    · exact (hbody h).imp_right .inr
  · rw [hhere] at h
    exact .inr (.inl (List.mem_singleton.mp h))
  · rw [String.toList_ofList] at h
    exact (hbody h).imp_right .inr

theorem isAllowed_plain {name : String} (h : isAllowed name = true) : isAllowed (plain name) = true := by
  rw [isAllowed, Bool.not_eq_true', List.contains_eq_mem, decide_eq_false_iff_not] at h ⊢
  intro hmem
  rcases mem_of_mem_plain hmem with hc | hc | hc
  · exact absurd hc (by decide)
  · exact absurd hc (by decide)
  · exact h hc

end Clvm.FileName
