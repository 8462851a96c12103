import Clvm.Compiler.Operators
import Clvm.Proofs.Compiler.Declarations
import Clvm.Proofs.Curry
import Clvm.Proofs.Files
import Clvm.Proofs.Text

/-!
# Included files

Items stand for declarations: an inclusion for those of its file, every other item for itself (`StandFor`). The compiler finds
and reads a file by a program that it runs. The run gives what the file holds and leaves the session as it is, so to declare
items is to add what they stand for, one after the other (`foldlM_declare_eq`).
-/

namespace Clvm.Compiler
open Machine

/-! ### Files on the search path -/

/-- The first file of a name on the search path has the source of a tree. -/
def FileHolds (search : List String) (store : Store) (name content : SExp) : Prop :=
  ∃ b text full source, name = .atom b ∧ Text.Utf8.decode? b = some text ∧
    findFile store (String.ofList text) search = .ok (some full) ∧ store.read full = .ok source ∧
    SExp.ofSource source = .ok content

theorem FileHolds.unique {search : List String} {store : Store} {name content₁ content₂ : SExp}
    (h₁ : FileHolds search store name content₁) (h₂ : FileHolds search store name content₂) : content₁ = content₂ := by
  obtain ⟨b₁, text₁, full₁, source₁, rfl, htext₁, hfull₁, hread₁, htree₁⟩ := h₁
  obtain ⟨b₂, text₂, full₂, source₂, ⟨⟩, htext₂, hfull₂, hread₂, htree₂⟩ := h₂
  cases htext₁.symm.trans htext₂
  cases hfull₁.symm.trans hfull₂
  cases hread₁.symm.trans hread₂
  exact Except.ok.inj (htree₁.symm.trans htree₂)

section Operators
variable {settings : Settings} {s s' : Session} {r : Charged}

theorem searchOperator_eq_ok {name : SExp} :
    searchOperator settings (.ofList [name]) s = .ok r s' ↔ s = s' ∧ ∃ b text full, name = .atom b ∧
      Text.Utf8.decode? b = some text ∧ findFile s.store (String.ofList text) settings.search = .ok (some full) ∧
      r = (1, .atom (Text.Utf8.encode full.toList)) := by
  constructor
  · intro h
    obtain ⟨_, s₁, hname, h⟩ := Action.bind_eq_ok.mp h
    obtain ⟨⟨⟩, rfl⟩ := Action.lift_eq_ok.mp hname
    split at h
    · cases h
    · cases name with
      | pair x y => cases h
      | atom b =>
        simp only [SExp.bytes?] at h
        cases htext : Text.Utf8.decode? b with
        | none =>
          rw [htext] at h
          cases h
        | some text =>
          rw [htext] at h
          obtain ⟨_, s₂, hget, h⟩ := Action.bind_eq_ok.mp h
          cases hget
          obtain ⟨found, s₃, hlift, h⟩ := Action.bind_eq_ok.mp h
          obtain ⟨hfound, rfl⟩ := Action.lift_eq_ok.mp hlift
          cases found with
          | none => cases h
          | some full =>
            obtain ⟨rfl, rfl⟩ := Action.pure_eq_ok.mp h
            exact ⟨rfl, b, text, full, rfl, htext, hfound, rfl⟩
  · rintro ⟨rfl, b, text, full, rfl, htext, hfound, rfl⟩
    have hsearch : settings.search.isEmpty = false := by
      cases hsearch : settings.search with
      | nil =>
        rw [hsearch] at hfound
        cases hfound
      | cons directory more => rfl
    refine Action.bind_eq_ok.mpr ⟨.atom b, s, rfl, ?_⟩
    simp only [hsearch, SExp.bytes?, htext, Bool.false_eq_true, ↓reduceIte]
    refine Action.bind_eq_ok.mpr ⟨s, s, rfl, ?_⟩
    exact Action.bind_eq_ok.mpr ⟨some full, s, Action.lift_eq_ok.mpr ⟨hfound, rfl⟩, rfl⟩

theorem fileName_encode {full name : String} (h : fileName (.atom (Text.Utf8.encode full.toList)) = .ok name) :
    full = name := by
  simp only [fileName, Text.decode?_encode, String.ofList_toList] at h
  split at h
  · cases h
  · cases h
    rfl

theorem fileName_of_read {store : Store} {full : String} {source : List Char} (h : store.read full = .ok source) :
    fileName (.atom (Text.Utf8.encode full.toList)) = .ok full := by
  have hallowed : FileName.isAllowed full = true := by
    cases hfind : store.find full with
    | error e =>
      rw [Store.read, hfind] at h
      cases h
    | ok f => exact (Store.find_eq_ok.mp hfind).1
  have hzero : ¬ (Text.Utf8.encode full.toList).contains 0 = true := by
    rw [FileName.isAllowed, Bool.not_eq_true', List.contains_eq_mem, decide_eq_false_iff_not] at hallowed
    rw [List.contains_iff_mem]
    exact Text.zero_not_mem_encode hallowed
  simp only [fileName, Text.decode?_encode, String.ofList_toList]
  exact if_neg hzero

theorem readOperator_eq_ok {full : String} :
    readOperator (.ofList [.atom (Text.Utf8.encode full.toList)]) s = .ok r s' ↔ s = s' ∧ ∃ source content,
      s.store.read full = .ok source ∧ SExp.ofSource source = .ok content ∧ r = (1, content) := by
  constructor
  · intro h
    obtain ⟨_, s₁, hfirst, h⟩ := Action.bind_eq_ok.mp h
    obtain ⟨⟨⟩, rfl⟩ := Action.lift_eq_ok.mp hfirst
    obtain ⟨name, s₂, hlift, h⟩ := Action.bind_eq_ok.mp h
    obtain ⟨hname, rfl⟩ := Action.lift_eq_ok.mp hlift
    obtain rfl := fileName_encode hname
    obtain ⟨source, s₃, hstore, h⟩ := Action.bind_eq_ok.mp h
    obtain ⟨hread, rfl⟩ := Action.ofExcept_eq_ok.mp hstore
    obtain ⟨content, s₄, hlift, h⟩ := Action.bind_eq_ok.mp h
    obtain ⟨hcontent, rfl⟩ := Action.lift_eq_ok.mp hlift
    obtain ⟨rfl, rfl⟩ := Action.pure_eq_ok.mp h
    exact ⟨rfl, source, content, hread, hcontent, rfl⟩
  · rintro ⟨rfl, source, content, hread, hcontent, rfl⟩
    refine Action.bind_eq_ok.mpr ⟨_, s, rfl, ?_⟩
    refine Action.bind_eq_ok.mpr ⟨full, s, Action.lift_eq_ok.mpr ⟨fileName_of_read hread, rfl⟩, ?_⟩
    refine Action.bind_eq_ok.mpr ⟨source, s, Action.ofExcept_eq_ok.mpr ⟨hread, rfl⟩, ?_⟩
    exact Action.bind_eq_ok.mpr ⟨content, s, Action.lift_eq_ok.mpr ⟨hcontent, rfl⟩, rfl⟩

end Operators

/-! ### Reading by a run -/

/-- The run that reads a file asks two operators. -/
theorem evaluate_includeProgram [Curve] (settings : Settings) (run : Runner) (k fuel : Nat) (name : SExp) :
    evaluate (.plain (operators settings run k)) (fuel + 11) includeProgram name = do
      let found ← searchOperator settings (.ofList [name])
      let content ← readOperator (.ofList [found.2])
      return (46 + found.1 + content.1, content.2) := by
  funext s
  have hstart : Machine.run (.plain (operators settings run k)) (fuel + 11) (.start includeProgram name) s =
      Machine.run (.plain (operators settings run k)) (fuel + 4)
        ⟨.apply Word.fullPathForName (.ofList [name]), [.operands Word.readFile name [] .nil], 46, #[]⟩ s := rfl
  have hsearch : (Config.plain (operators settings run k)).operators.apply Word.fullPathForName = searchOperator settings := rfl
  have hread : (Config.plain (operators settings run k)).operators.apply Word.readFile = readOperator := rfl
  rw [evaluate, hstart, run_succ_of_not_final rfl, step_operator rfl (by decide), hsearch]
  simp only [bind, EStateM.bind]
  cases searchOperator settings (.ofList [name]) s with
  | error e s₁ => rfl
  | ok found s₁ =>
    have hvalue : Machine.run (.plain (operators settings run k)) (fuel + 3)
          ⟨.value found.2, [.operands Word.readFile name [] .nil], 46 + found.1, #[]⟩ s₁ =
        Machine.run (.plain (operators settings run k)) (fuel + 2)
          ⟨.apply Word.readFile (.ofList [found.2]), [], 46 + found.1, #[]⟩ s₁ := rfl
    dsimp only
    rw [hvalue, run_succ_of_not_final rfl, step_operator rfl (by decide), hread]
    cases readOperator (.ofList [found.2]) s₁ <;> rfl

section Reading
variable {settings : Settings} {levels : Nat} {name : SExp} {s s' : Session}

/-- A run that reads a file gives what the file holds, and does not act on the session. -/
theorem fileHolds_of_runner [Curve] {r : Charged} (h : runner settings levels includeProgram name s = .ok r s') :
    s = s' ∧ FileHolds settings.search s.store name r.2 := by
  cases levels with
  | zero => cases h
  | succ levels =>
    rw [runner] at h
    have hmore := evaluate_of_le (Nat.le_add_right levels 11) h
    rw [evaluate_includeProgram] at hmore
    obtain ⟨found, s₁, hfound, hmore⟩ := Action.bind_eq_ok.mp hmore
    obtain ⟨rfl, b, text, full, hname, htext, hfull, rfl⟩ := searchOperator_eq_ok.mp hfound
    obtain ⟨content, s₂, hcontent, hmore⟩ := Action.bind_eq_ok.mp hmore
    obtain ⟨rfl, source, tree, hread, htree, rfl⟩ := readOperator_eq_ok.mp hcontent
    obtain ⟨rfl, rfl⟩ := Action.pure_eq_ok.mp hmore
    exact ⟨rfl, b, text, full, source, hname, htext, hfull, hread, htree⟩

/-- Reading takes eleven steps, at the level below. -/
theorem runner_of_fileHolds [Curve] (hlevels : 12 ≤ levels) {content : SExp}
    (h : FileHolds settings.search s.store name content) :
    ∃ cost, runner settings levels includeProgram name s = .ok (cost, content) s := by
  obtain ⟨n, rfl⟩ := Nat.exists_eq_add_of_le' hlevels
  obtain ⟨b, text, full, source, hname, htext, hfull, hread, htree⟩ := h
  refine ⟨48, ?_⟩
  rw [runner, evaluate_includeProgram]
  refine Action.bind_eq_ok.mpr ⟨_, s, searchOperator_eq_ok.mpr ⟨rfl, b, text, full, hname, htext, hfull, rfl⟩, ?_⟩
  exact Action.bind_eq_ok.mpr ⟨_, s, readOperator_eq_ok.mpr ⟨rfl, source, content, hread, htree, rfl⟩, rfl⟩

end Reading

/-! ### What items stand for -/

/-- The declarations that items stand for, where files are included at most `depth` deep: an inclusion stands for what the
items of its file stand for. -/
inductive StandFor (search : List String) (store : Store) : Nat → List SExp → List SExp → Prop where
  | nil (depth : Nat) : StandFor search store depth [] []
  | declaration {depth : Nat} {keyword : SExp} (hkeyword : keyword ≠ .atom Word.includeFile) (name more : SExp)
      {items xs : List SExp} (h : StandFor search store depth items xs) :
      StandFor search store depth (.pair keyword (.pair name more) :: items) (.pair keyword (.pair name more) :: xs)
  | inclusion {depth : Nat} {name : SExp} {content ys items xs : List SExp}
      (hfile : FileHolds search store name (.ofList content)) (hcontent : StandFor search store depth content ys)
      (more : SExp) (h : StandFor search store (depth + 1) items xs) :
      StandFor search store (depth + 1) (.pair (.atom Word.includeFile) (.pair name more) :: items) (ys ++ xs)

theorem StandFor.unique {search : List String} {store : Store} {depth₁ depth₂ : Nat} {items xs₁ xs₂ : List SExp}
    (h₁ : StandFor search store depth₁ items xs₁) (h₂ : StandFor search store depth₂ items xs₂) : xs₁ = xs₂ := by
  induction h₁ generalizing depth₂ xs₂ with
  | nil =>
    cases h₂
    rfl
  | declaration hkeyword name more _ ih =>
    cases h₂ with
    | declaration _ _ _ h => rw [ih h]
    | inclusion => exact absurd rfl hkeyword
  | inclusion hfile _ more _ ihcontent ih =>
    cases h₂ with
    | declaration hkeyword => exact absurd rfl hkeyword
    | inclusion hfile₂ hcontent _ h =>
      have hsame := congrArg SExp.items (hfile.unique hfile₂)
      rw [SExp.items_ofList, SExp.items_ofList] at hsame
      subst hsame
      rw [ihcontent hcontent, ih h]

section Items
variable {settings : Settings} {levels : Nat} {s : Session}

theorem checkProper_eq_ok {t : SExp} : t.checkProper = .ok () ↔ t.terminator = [] := by
  rw [SExp.checkProper]
  cases t.terminator <;> simp

/-- To declare items is to add what they stand for. -/
theorem foldlM_declare_eq [Curve] {depth fuel : Nat} {items xs : List SExp} (hlevels : 12 ≤ levels)
    (h : StandFor settings.search s.store depth items xs) (hfuel : depth < fuel) (d : Declarations) :
    items.foldlM (declare (runner settings levels) fuel) d s = Action.ofExcept (xs.foldlM Declarations.addItem d) s := by
  induction h generalizing fuel d with
  | nil depth => rfl
  | @declaration depth keyword hkeyword name more items xs h ih =>
    obtain ⟨fuel, rfl⟩ := Nat.exists_eq_add_one_of_ne_zero (Nat.ne_zero_of_lt hfuel)
    rw [List.foldlM_cons, List.foldlM_cons, declare_pair, if_neg hkeyword, Action.ofExcept_bind, addItem_pair]
    simp only [bind, EStateM.bind]
    cases d.add keyword name (.pair keyword (.pair name more)) with
    | error e => rfl
    | ok d' => exact ih hfuel d'
  | @inclusion depth name content ys items xs hfile hcontent more h ihcontent ih =>
    obtain ⟨fuel, rfl⟩ := Nat.exists_eq_add_one_of_ne_zero (Nat.ne_zero_of_lt hfuel)
    obtain ⟨cost, hrun⟩ := runner_of_fileHolds hlevels hfile
    rw [List.foldlM_cons, List.foldlM_append, declare_pair, if_pos rfl, Action.ofExcept_bind]
    simp only [bind, EStateM.bind, hrun, SExp.items_ofList, ihcontent (Nat.lt_of_succ_lt_succ hfuel) d]
    cases ys.foldlM Declarations.addItem d with
    | error e => rfl
    | ok d' =>
      have hproper : (SExp.ofList content).checkProper = .ok () := checkProper_eq_ok.mpr (SExp.terminator_ofList content)
      rw [hproper]
      exact ih hfuel d'

/-- One item, if it is known what the items of files stand for. -/
theorem standFor_cons_of_expand [Curve] {fuel : Nat} {x : SExp} {xs : List SExp} {s' : Session}
    (hfiles : ∀ content yss s', content.mapM (expand (runner settings levels) fuel) s = .ok yss s' →
      s = s' ∧ StandFor settings.search s.store fuel content yss.flatten)
    (h : expand (runner settings levels) (fuel + 1) x s = .ok xs s') :
    s = s' ∧ ∀ items ys, StandFor settings.search s.store (fuel + 1) items ys →
      StandFor settings.search s.store (fuel + 1) (x :: items) (xs ++ ys) := by
  rcases x with _ | ⟨keyword, _ | ⟨name, more⟩⟩
  · cases h
  · cases h
  · rw [expand_pair] at h
    split at h
    · rename_i hinclude
      subst hinclude
      obtain ⟨⟨cost, content⟩, s₁, hrun, h⟩ := Action.bind_eq_ok.mp h
      obtain ⟨rfl, hfile⟩ := fileHolds_of_runner hrun
      obtain ⟨yss, s₂, hyss, h⟩ := Action.bind_eq_ok.mp h
      obtain ⟨rfl, hcontent⟩ := hfiles _ _ _ hyss
      obtain ⟨_, s₃, hlift, h⟩ := Action.bind_eq_ok.mp h
      obtain ⟨hproper, rfl⟩ := Action.lift_eq_ok.mp hlift
      obtain ⟨rfl, rfl⟩ := Action.pure_eq_ok.mp h
      rw [← ofList_items (checkProper_eq_ok.mp hproper)] at hfile
      exact ⟨rfl, fun items ys hitems => .inclusion hfile hcontent more hitems⟩
    · rename_i hinclude
      obtain ⟨rfl, rfl⟩ := Action.pure_eq_ok.mp h
      exact ⟨rfl, fun items ys hitems => .declaration hinclude name more hitems⟩

/-- Where items can be expanded, they stand for what they are expanded to. -/
theorem standFor_of_mapM_expand [Curve] {fuel : Nat} {items : List SExp} {xss : List (List SExp)} {s' : Session}
    (h : items.mapM (expand (runner settings levels) fuel) s = .ok xss s') :
    s = s' ∧ StandFor settings.search s.store fuel items xss.flatten := by
  -- Along the fuel for what is inside of files, and along the items for what follows them.
  induction fuel generalizing items xss s s' with
  | zero =>
    cases items with
    | nil =>
      obtain ⟨rfl, rfl⟩ := Action.pure_eq_ok.mp h
      exact ⟨rfl, .nil 0⟩
    | cons x items =>
      rw [List.mapM_cons] at h
      cases h
  | succ fuel ihfuel =>
    induction items generalizing xss with
    | nil =>
      obtain ⟨rfl, rfl⟩ := Action.pure_eq_ok.mp h
      exact ⟨rfl, .nil _⟩
    | cons x items ih =>
      rw [List.mapM_cons] at h
      obtain ⟨xs, s₁, hx, h⟩ := Action.bind_eq_ok.mp h
      obtain ⟨xss, s₂, hitems, h⟩ := Action.bind_eq_ok.mp h
      obtain ⟨rfl, rfl⟩ := Action.pure_eq_ok.mp h
      obtain ⟨rfl, hcons⟩ := standFor_cons_of_expand (fun _ _ _ => ihfuel) hx
      obtain ⟨rfl, hrest⟩ := ih hitems
      exact ⟨rfl, hcons items xss.flatten hrest⟩

end Items

end Clvm.Compiler
