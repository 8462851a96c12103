/-!
# Cutting and joining text
-/

namespace Clvm.Text

/-- The pieces between separators; there is always one more piece than separators. -/
def splitOn (sep : Char) : List Char → List (List Char)
  | [] => [[]]
  | c :: cs =>
    if c = sep then [] :: splitOn sep cs
    else
      match splitOn sep cs with
      | [] => [[c]]
      | piece :: pieces => (c :: piece) :: pieces

/-- The pieces with a separator between any two. -/
def join (sep : List Char) : List (List Char) → List Char
  | [] => []
  | [piece] => piece
  | piece :: pieces => piece ++ sep ++ join sep pieces

theorem splitOn_ne_nil (sep : Char) (cs : List Char) : splitOn sep cs ≠ [] := by
  cases cs with
  | nil => simp [splitOn]
  | cons c cs =>
    unfold splitOn
    split
    · simp
    · split <;> simp

/-- Joining the pieces gives the text back. -/
theorem join_splitOn (sep : Char) (cs : List Char) : join [sep] (splitOn sep cs) = cs := by
  induction cs with
  | nil => rfl
  | cons c cs ih =>
    have h := splitOn_ne_nil sep cs
    unfold splitOn
    cases hs : splitOn sep cs with
    | nil => exact absurd hs h
    | cons p ps =>
      rw [hs] at ih
      by_cases hc : c = sep
      · simp [hc, join, ih]
      · cases ps <;> simp_all [join]

/-- The text before and after the first place where another text stands. -/
def cutAt? (sep : List Char) : List Char → Option (List Char × List Char)
  | [] => if sep.isEmpty then some ([], []) else none
  | c :: cs =>
    if sep.isPrefixOf (c :: cs) then some ([], (c :: cs).drop sep.length)
    else (cutAt? sep cs).map fun (before, after) => (c :: before, after)

/-- The text before the first place where another text stands, or all of it. -/
def before (sep cs : List Char) : List Char := ((cutAt? sep cs).map (·.1)).getD cs

/-- The text after the first place where another text stands, if there is one. -/
def after? (sep cs : List Char) : Option (List Char) := (cutAt? sep cs).map (·.2)

/-- The lines of a text, with their ends. -/
def lines : List Char → List (List Char)
  | [] => []
  | c :: cs =>
    if c = '\n' then ['\n'] :: lines cs
    else
      match lines cs with
      | [] => [[c]]
      | line :: more => (c :: line) :: more

/-- Every end of line as a line feed, be it a carriage return, a line feed or both. -/
def unixLines : List Char → List Char
  | '\r' :: '\n' :: cs => '\n' :: unixLines cs
  | '\r' :: cs => '\n' :: unixLines cs
  | c :: cs => c :: unixLines cs
  | [] => []

end Clvm.Text
