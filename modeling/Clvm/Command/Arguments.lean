import Clvm.Text.Decimal

/-!
# Arguments of a command

A command is called with options and operands. An option is one of the names in a list, or an
unambiguous beginning of a long one; a value follows it as the next argument, after an equals sign, or, for a
short name, at once. Short names without values can be written together, also with an equals sign behind the
first. All that is no option is an operand, and so is everything after the mark `--`. A value that is written
together with its option and is the mark itself is left out.

Arguments are read from left to right, and the first that asks for help or cannot be accepted ends the reading.
Operands are taken at the first place where there are any: those of a later place, after more options, are too
many, and so is the mark there. What is too many is refused only at the end.
-/

namespace Clvm.Command

/-- What an option does. -/
inductive Role where
  /-- It is given or not. -/
  | flag
  /-- It has a value, and some values are not accepted. -/
  | value (accepts : String → Bool)
  /-- It asks for help. -/
  | help

/-- An option under all its names. -/
structure Switch (κ : Type) where
  key : κ
  names : List String
  role : Role

def Switch.takesValue {κ : Type} (s : Switch κ) : Bool :=
  match s.role with
  | .value _ => true
  | _ => false

/-- What a command can be called with. -/
structure Usage (κ : Type) where
  switches : List (Switch κ)
  /-- The most operands that are taken, if there is a bound. -/
  most : Option Nat
  /-- The operands that can be taken. -/
  accepts : String → Bool

/-- Why the arguments of a command were not all read. -/
inductive Stop where
  | help
  | refused
deriving DecidableEq, Repr

/-- What an argument looks like. -/
inductive Argument (κ : Type) where
  | operand
  /-- An option with what is written together with its name. -/
  | option (switch : Switch κ) (short : Bool) (attached : Option (List Char))
  | unknown
  | ambiguous

/-- The options that were given, in order, and the operands. An option has a value unless it takes none or the
value was left out. -/
structure Arguments (κ : Type) where
  options : List (κ × Option String)
  operands : List String

namespace Argument

variable {κ : Type}

def isShortName (name : List Char) : Bool :=
  match name with
  | '-' :: '-' :: _ => false
  | _ => true

/-- The option of a name. -/
def named? (switches : List (Switch κ)) (name : List Char) : Option (Switch κ) :=
  switches.find? fun s => s.names.contains (String.ofList name)

/-- The text before the first equals sign, and what is after it. -/
def cutAtEquals (cs : List Char) : List Char × Option (List Char) :=
  match cs.span (· ≠ '=') with
  | (before, _ :: after) => (before, some after)
  | (before, []) => (before, none)

/-- Every option that a long name can be short for. -/
def longMatches (switches : List (Switch κ)) (cs : List Char) : List (Argument κ) :=
  let (start, attached) := cutAtEquals cs
  switches.flatMap fun s =>
    (s.names.filter fun n => start.isPrefixOf n.toList).map fun _ => option s false attached

/-- Every option that a short name with more text after it can mean. -/
def shortMatches (switches : List (Switch κ)) (cs : List Char) : List (Argument κ) :=
  switches.flatMap fun s =>
    (s.names.filter fun n => n.toList = cs.take 2).map fun _ => option s true (some (cs.drop 2))

/-- The text without a line end behind it. -/
def dropLineEnd (cs : List Char) : List Char := if cs.getLast? = some '\n' then cs.dropLast else cs

/-- Whether a text is a minus sign and digits, perhaps with a point and more digits, on one line. -/
def looksNegative (cs : List Char) : Bool :=
  match dropLineEnd cs with
  | '-' :: body =>
    let isDigit := fun c => (Text.digit? c).isSome
    match body.span isDigit with
    | (ds, []) => !ds.isEmpty
    | (_, '.' :: places) => !places.isEmpty && places.all isDigit
    | _ => false
  | _ => false

/-- What an argument is, among given options. -/
def classify (switches : List (Switch κ)) (cs : List Char) : Argument κ :=
  if cs.head? ≠ some '-' then operand
  else
    match named? switches cs with
    | some s => option s (isShortName cs) none
    | none =>
      if cs.length = 1 then operand
      else
        let (name, attached) := cutAtEquals cs
        match attached, named? switches name with
        | some value, some s => option s (isShortName name) (some value)
        | _, _ =>
          match if isShortName cs then shortMatches switches cs else longMatches switches cs with
          | [found] => found
          | _ :: _ :: _ => ambiguous
          | [] => if looksNegative cs || cs.contains ' ' then operand else unknown

def isOperand : Argument κ → Bool
  | operand => true
  | _ => false

def isAmbiguous : Argument κ → Bool
  | ambiguous => true
  | _ => false

end Argument

/-- What one argument with options in it gives. -/
structure Given (κ : Type) where
  /-- The options and their values, in order. -/
  options : List (Switch κ × Option String)
  /-- The option that still needs its value. -/
  waiting : Option (Switch κ)

namespace Given

variable {κ : Type}

/-- An option by its name alone. -/
def alone (s : Switch κ) : Given κ :=
  if s.takesValue then ⟨[], some s⟩ else ⟨[(s, none)], none⟩

/-- An option with a value. -/
def valued (s : Switch κ) (value : List Char) : Given κ :=
  ⟨[(s, if value = ['-', '-'] then none else some (String.ofList value))], none⟩

/-- One option more in front. -/
def after (s : Switch κ) (g : Given κ) : Given κ := { g with options := (s, none) :: g.options }

/-- Reads a short name and the text at once after it: its value, or more short names, of which the last may have
a value. -/
def ofCluster (switches : List (Switch κ)) : Switch κ → List Char → Except Stop (Given κ)
  | s, [] => .ok (alone s)
  | s, c :: more =>
    if s.takesValue then .ok (valued s (c :: more))
    else
      match Argument.named? switches ['-', c] with
      | some next => (ofCluster switches next more).map (after s)
      | none => .error .refused

/-- Reads an option with what is written together with its name. -/
def ofOption (switches : List (Switch κ)) (s : Switch κ) (short : Bool) :
    Option (List Char) → Except Stop (Given κ)
  | none => .ok (alone s)
  | some text =>
    if s.takesValue then .ok (valued s text)
    else if short ∧ text ≠ [] then ofCluster switches s text
    else .error .refused

end Given

/-- Where the one place of the operands lies. -/
inductive OperandPlace where
  | ahead
  | here
  | behind
deriving DecidableEq, Repr

/-- What has been read of the arguments. -/
structure Reading (κ : Type) extends Arguments κ where
  place : OperandPlace
  /-- Whether there was something that is too many. -/
  extra : Bool

namespace Reading

variable {κ : Type}

def start : Reading κ := { options := [], operands := [], place := .ahead, extra := false }

/-- Notes that there is something too many. -/
def tooMany (r : Reading κ) : Reading κ := { r with extra := true }

/-- Ends the place of the operands, if there were any. -/
def leavePlace (r : Reading κ) : Reading κ := if r.place = .here then { r with place := .behind } else r

/-- Reads the mark that only operands follow. -/
def addMark (r : Reading κ) : Reading κ :=
  if r.place = .behind then r.tooMany else { r with place := .here }

/-- Reads an operand. -/
def addOperand (u : Usage κ) (r : Reading κ) (a : String) : Except Stop (Reading κ) :=
  if r.place = .behind ∨ u.most.any (· ≤ r.operands.length) then .ok r.tooMany
  else if u.accepts a then .ok { r with operands := r.operands ++ [a], place := .here }
  else .error .refused

/-- Does what an option asks for. -/
def addOption (r : Reading κ) (s : Switch κ) (value : Option String) : Except Stop (Reading κ) :=
  let added := { r with options := r.options ++ [(s.key, value)] }
  match s.role with
  | .flag => .ok added
  | .value accepts => if value.all accepts then .ok added else .error .refused
  | .help => .error .help

/-- Does what all options of an argument ask for. -/
def addGiven (r : Reading κ) (g : Given κ) : Except Stop (Reading κ) :=
  g.options.foldlM (fun r (s, value) => r.addOption s value) r

/-- Reads on from left to right. -/
def readOn (u : Usage κ) : Reading κ → List String → Except Stop (Reading κ)
  | r, [] => .ok r
  | r, "--" :: rest => rest.foldlM (addOperand u) r.addMark
  | r, a :: rest =>
    match Argument.classify u.switches a.toList with
    | .operand => do readOn u (← r.addOperand u a) rest
    | .unknown => readOn u r.leavePlace.tooMany rest
    | .ambiguous => .error .refused
    | .option s short attached => do
      let given ← Given.ofOption u.switches s short attached
      match given.waiting with
      | none => readOn u (← r.leavePlace.addGiven given) rest
      | some waiting =>
        match rest with
        | [] => .error .refused
        | value :: rest =>
          if (Argument.classify u.switches value.toList).isOperand then
            let r ← r.leavePlace.addGiven given
            readOn u (← r.addOption waiting (some value)) rest
          else .error .refused

end Reading

namespace Arguments

variable {κ : Type}

/-- Reads the arguments of a command. A name that could mean several options is refused before all else. -/
def read (u : Usage κ) (args : List String) : Except Stop (Arguments κ) := do
  let named := args.takeWhile (· ≠ "--")
  if named.any fun a => (Argument.classify u.switches a.toList).isAmbiguous then .error .refused
  else
    let r ← Reading.start.readOn u args
    if r.extra then .error .refused else return r.toArguments

variable [BEq κ]

/-- Whether an option was given. -/
def has (args : Arguments κ) (key : κ) : Bool := args.options.any (·.1 == key)

/-- All values given for an option, in order. -/
def values (args : Arguments κ) (key : κ) : List (Option String) :=
  (args.options.filter (·.1 == key)).map (·.2)

/-- The value of an option, the last if there are more. -/
def value? (args : Arguments κ) (key : κ) : Option (Option String) := (args.values key).getLast?

end Arguments
end Clvm.Command
