import Clvm.Assembler

/-!
# A trace as a web page

Every invocation with its form, its environment and its result, the latest first, and after them a list of the forms.
Values are linked by identity: equal values can be different objects.
-/

namespace Clvm.Report

/-- A value as an object with an identity. -/
structure Object where
  id : Nat
  value : SExp
deriving DecidableEq, Repr

/-- An invocation of a form; `effective` is the form that was evaluated in its place. -/
structure Invocation where
  form : Object
  effective : Object
  env : List Object
  result : Object
deriving DecidableEq, Repr

namespace Object

def idText (o : Object) : String := toString o.id

def source (o : Object) : String := String.ofList o.value.toSource

/-- The value under its identity. -/
def element (o : Object) : String := "<span id=\"" ++ o.idText ++ "\">" ++ o.source ++ "</span>"

/-- The value as the place that links lead to. -/
def anchor (o : Object) : String :=
  "<span class=\"form\"><a name=\"id_" ++ o.idText ++ "\">" ++ o.element ++ "</a></span>"

/-- A link to the value, with a text. -/
def link (o : Object) (text : String) : String := "<a href=\"#id_" ++ o.idText ++ "\">" ++ text ++ "</a>"

end Object

/-- The lines that the page begins with. -/
def opening : List String :=
  ["<html>",
   "<head>",
   "  <link rel=\"stylesheet\"",
   "      href=\"https://stackpath.bootstrapcdn.com/bootstrap/4.3.1/css/bootstrap.min.css\"",
   "      integrity=\"sha384-ggOyR0iXCbMQv3Xipma34MD+dH/1fQ784/j6cY/iJTQUOhcWr7x9JvoRxT2MZw1T\"",
   "      crossorigin=\"anonymous\">",
   "  <script",
   "      src=\"https://code.jquery.com/jquery-3.3.1.slim.min.js\"",
   "      integrity=\"sha384-q8i/X+965DzO0rT7abK41JStQIAqVgRVzpbzo5smXKp4YfRvH+8abtTE1Pi6jizo\"",
   "      crossorigin=\"anonymous\"></script>",
   "  <script",
   "      src=\"https://cdnjs.cloudflare.com/ajax/libs/popper.js/1.14.7/umd/popper.min.js\"",
   "      integrity=\"sha384-UO2eT0CpHqdSJQ6hJty5KVphtPhzWj9WO1clHTMGa3JDZwrnQq4sF86dIHNDz0W1\"",
   "      crossorigin=\"anonymous\"></script>",
   "  <script",
   "      src=\"https://stackpath.bootstrapcdn.com/bootstrap/4.3.1/js/bootstrap.min.js\"",
   "      integrity=\"sha384-JjSmVgyd0p3pXB1rRibZUAYoIIy6OrQ6VrjIEaFf/nJGzIxFDsf4x0xIM+B07jRM\"",
   "      crossorigin=\"anonymous\"></script>",
   "</head>",
   "<body>",
   "<div class=\"container\">",
   ""]

/-- The line that the page ends with. -/
def closing : String := "</div></body></html>"

namespace Invocation

/-- The lines of an invocation. A form that is a pair cannot be shown. -/
def lines (i : Invocation) : Except Error (List String) :=
  if i.form.value.isPair then .error .notAnAtom
  else .ok (
    ["<hr><div class=\"invocation\" id=\"" ++ i.form.idText ++ "\">", i.form.anchor, "<ul>"] ++
    (if i.form.value = i.effective.value then [] else ["<li>Rewritten as:" ++ i.effective.anchor ++ "</li>"]) ++
    i.env.zipIdx.map (fun (o, n) => "<li>x" ++ toString n ++ ": " ++ o.link o.element ++ "</li>") ++
    ["</ul>", "<span class=\"form\">" ++ i.result.element ++ "</span>", "</div>"])

end Invocation

/-- The objects without those that an earlier one is the same as. -/
def distinct (objects : List Object) : List Object :=
  (objects.foldl (fun seen o => if seen.any (·.id == o.id) then seen else o :: seen) []).reverse

/-- The page of a list of invocations. -/
def page (invocations : List Invocation) : Except Error (List Char) := do
  let latestFirst := invocations.reverse
  let shown ← latestFirst.mapM Invocation.lines
  let forms := (distinct (latestFirst.map (·.form))).map fun o => "<div>" ++ o.link o.source ++ "</div>"
  let lines := opening ++ shown.flatten ++ ["<hr>"] ++ forms ++ ["<hr>", closing]
  return lines.flatMap fun l => l.toList ++ ['\n']

end Clvm.Report
