import Clvm.Machine.Lookup
import Clvm.Operator.Apply

/-!
# The machine

The machine evaluates a form in an environment. Its state is what it does next and the frames that wait
for the value: an operator whose operands are being evaluated, from the last to the first, or an entry
of the trace that records the value. Every step adds its cost, and a run stops when the cost passes the
limit.

An operator table says which operators are known. Operators may act on a state of their own, which the
machine passes along and which survives a failure.
-/

namespace Clvm

/-- A computation on a state `σ` that may fail; the state is kept when it does. -/
abbrev Action (σ : Type) := EStateM Error σ

/-- A result that does not touch the state. -/
def Action.ofExcept {σ α : Type} : Except Error α → Action σ α
  | .ok a => fun s => .ok a s
  | .error e => fun s => .error e s

instance {σ : Type} : MonadLift (Except Error) (EStateM Error σ) := ⟨Action.ofExcept⟩

/-- What operators do. -/
structure Operators (σ : Type) where
  known : Bytes → Option (SExp → Action σ Charged)
  unknown : Bytes → SExp → Except Error Charged

namespace Operators

/-- The machine's own operators. -/
def base {σ : Type} [Curve] : Operators σ where
  known b := (Operator.ofBytes? b).map fun op args => Action.ofExcept (op.apply args)
  unknown := UnknownOperator.apply

/-- The same operators, without any reading of unknown ones. -/
def strict {σ : Type} (ops : Operators σ) : Operators σ := { ops with unknown := UnknownOperator.refuse }

/-- Applies the operator of an atom to its operands. -/
def apply {σ : Type} (ops : Operators σ) (op : Bytes) (args : SExp) : Action σ Charged :=
  match ops.known op with
  | some f => f args
  | none => Action.ofExcept (ops.unknown op args)

end Operators

namespace Machine

/-- A form that was evaluated, its environment and, once it is known, its value. -/
structure Entry where
  form : SExp
  env : SExp
  result : Option SExp
deriving DecidableEq, Repr

/-- What a run is given besides its form and environment. -/
structure Config (σ : Type) where
  operators : Operators σ
  /-- The highest cost that is allowed. -/
  limit : Option Int
  /-- The forms whose evaluation is recorded. -/
  watch : SExp → Bool

namespace Config

/-- No limit and no trace. -/
def plain {σ : Type} (ops : Operators σ) : Config σ := ⟨ops, none, fun _ => false⟩

/-- A limit of zero is none. -/
def limited {σ : Type} (ops : Operators σ) (limit : Int) : Config σ :=
  ⟨ops, if limit = 0 then none else some limit, fun _ => false⟩

end Config

/-- What the machine does next. -/
inductive Control where
  | enter (form env : SExp)
  | eval (form env : SExp)
  | apply (op : Bytes) (args : SExp)
  | value (v : SExp)
deriving DecidableEq, Repr

/-- What waits for a value. -/
inductive Frame where
  /-- `pending` are the operands still to be evaluated, the last first; `done` are the values of those
  after them. -/
  | operands (op : Bytes) (env : SExp) (pending : List SExp) (done : SExp)
  | report (entry : Nat)
deriving DecidableEq, Repr

structure State where
  control : Control
  frames : List Frame
  cost : Nat
  log : Array Entry
deriving DecidableEq, Repr

/-- The machine about to evaluate a form. -/
def State.start (form env : SExp) : State := ⟨.enter form env, [], 0, #[]⟩

/-- Adds a cost and goes on as told, unless the cost is now over the limit. -/
def State.charge (s : State) (limit : Option Int) (cost : Nat) (control : Control)
    (frames : List Frame) : Except Error State :=
  let total := s.cost + cost
  match limit with
  | none => .ok { s with cost := total, control, frames }
  | some most =>
    if (total : Int) > most then .error (.eval .costExceeded (.ofInt most))
    else .ok { s with cost := total, control, frames }

/-- What evaluating a form comes to at once: its cost, what to do next and the frame to push for it. -/
def dispatch (form env : SExp) : Except Error (Nat × Control × Option Frame) :=
  match form with
  | .atom path => do
    let (cost, v) ← lookup path env
    return (cost, .value v, none)
  | .pair (.atom op) operands =>
    if op = Keyword.quote then .ok (20, .value operands, none)
    else do
      match (← operands.toList).reverse with
      | [] => return (1, .apply op .nil, none)
      | x :: pending => return (1, .enter x env, some (.operands op env pending .nil))
  | .pair (.pair (.atom op) (.atom [])) operands => .ok (90, .apply op operands, none)
  | .pair (.pair _ _) _ => .error (.eval .operatorNotLoneAtom form)

/-- One step. A state whose value no frame waits for is final. -/
def step {σ : Type} (c : Config σ) (s : State) : Action σ State :=
  match s.control with
  | .enter form env =>
    if c.watch form then
      pure { s with
        control := .eval form env
        frames := .report s.log.size :: s.frames
        log := s.log.push ⟨form, env, none⟩ }
    else pure { s with control := .eval form env }
  | .eval form env => Action.ofExcept do
    let (cost, control, frame) ← dispatch form env
    s.charge c.limit cost control (frame.toList ++ s.frames)
  | .apply op args =>
    if op = Keyword.apply then
      match args with
      | .pair form (.pair env (.atom _)) => Action.ofExcept (s.charge c.limit 90 (.enter form env) s.frames)
      | _ => throw (.eval .applyArity args)
    else do
      let (cost, v) ← c.operators.apply op args
      s.charge c.limit cost (.value v) s.frames
  | .value v =>
    match s.frames with
    | [] => pure s
    | .report i :: frames =>
      pure { s with frames, log := s.log.modify i fun e => { e with result := some v } }
    | .operands op _ [] done :: frames => pure { s with control := .apply op (.pair v done), frames }
    | .operands op env (x :: pending) done :: frames =>
      pure { s with control := .enter x env, frames := .operands op env pending (.pair v done) :: frames }

/-- How a run ended, and what it recorded. -/
structure Run where
  outcome : Except Error Charged
  log : Array Entry

/-- Steps from a state until it is final, at most `fuel` times. -/
def run {σ : Type} (c : Config σ) : Nat → State → σ → Run × σ
  | 0, s, w => (⟨.error .outOfFuel, s.log⟩, w)
  | fuel + 1, s, w =>
    match s.control, s.frames with
    | .value v, [] => (⟨.ok (s.cost, v), s.log⟩, w)
    | _, _ =>
      match step c s w with
      | .ok s' w' => run c fuel s' w'
      | .error e w' => (⟨.error e, s.log⟩, w')

/-- Steps from a state until it is final, however many steps that takes. A run that never ends has no result. -/
def Config.exec {σ : Type} (c : Config σ) (s : State) (w : σ) : Option (Run × σ) :=
  match s.control, s.frames with
  | .value v, [] => some (⟨.ok (s.cost, v), s.log⟩, w)
  | _, _ =>
    match step c s w with
    | .ok s' w' => c |>.exec s' w'
    | .error e w' => some (⟨.error e, s.log⟩, w')
partial_fixpoint

/-- The cost and value of a form in an environment. -/
def evaluate {σ : Type} (c : Config σ) (fuel : Nat) (form env : SExp) : Action σ Charged := fun w =>
  match run c fuel (.start form env) w with
  | (⟨.ok r, _⟩, w') => .ok r w'
  | (⟨.error e, _⟩, w') => .error e w'

/-- More steps than any run takes that ends in a lifetime. -/
def ample : Nat := Nat.pow 2 60

/-- The machine with its own operators only. A run that never ends gives no answer. -/
def evaluateBase [Curve] (form env : SExp) (limit : Int) (strict : Bool) : Except Error Charged :=
  let ops : Operators Unit := if strict then Operators.base.strict else Operators.base
  match (Config.limited ops limit).exec (.start form env) () with
  | some (r, _) => r.outcome
  | none => .error .outOfFuel

end Machine
end Clvm
