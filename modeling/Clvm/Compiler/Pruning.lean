import Clvm.Compiler.Declarations

/-!
# Names that a module uses

From the main expression, every atom of a function or macro that is used counts as a mention. What is never
mentioned is left out of the compiled program.
-/

namespace Clvm.Compiler

/-- Macros by name; the last of a name counts. -/
def macrosByName : List SExp → Except Error Named
  | [] => .ok []
  | m :: ms => do
    let name ← (← m.rest).first
    return (← macrosByName ms).foldl (fun table (n, t) => table.put n t) [(name.bytes?, m)]

/-- The atoms that the function and the macro of a name mention. -/
def mentions (functions macros : Named) (name : Bytes) : List Bytes :=
  let leavesOf := fun (table : Named) =>
    match table.lookup (some name) with
    | some t => t.leaves
    | none => []
  leavesOf functions ++ leavesOf macros

/-- Adds names that are mentioned by those just added, round by round. -/
def reach (candidates : List Bytes) (mentioned : Bytes → List Bytes) :
    Nat → List Bytes → List Bytes → List Bytes
  | 0, _, seen => seen
  | rounds + 1, recent, seen =>
    let atoms := recent.flatMap mentioned
    let new := candidates.filter fun n => !seen.contains n && atoms.contains n
    if new.isEmpty then seen else reach candidates mentioned rounds new (seen ++ new)

/-- The names of functions and constants that the main expression reaches, in the order of their bytes. -/
def usedNames (functions constants : Named) (macros : List SExp) : Except Error (List Bytes) := do
  let macroTable ← macrosByName macros
  let declared := functions.filterMap (·.1) ++ constants.filterMap (·.1)
  let candidates := (declared ++ macroTable.filterMap (·.1)).eraseDups
  let reached := reach candidates (mentions functions macroTable) (candidates.length + 1) [mainName] [mainName]
  let used := reached.filter fun n => declared.contains n && n ≠ mainName
  return used.mergeSort fun x y => !Bytes.lt y x

end Clvm.Compiler
