import Clvm.Session

/-!
# Consoles

What a command works on: a session, the standard input and the lines printed so far.
-/

namespace Clvm.Command

structure Console where
  session : Session
  /-- What is left of the standard input. -/
  input : List Char
  printed : Array (List Char)
deriving DecidableEq, Repr

namespace Console

def start (store : Store) (input : List Char) : Console := ⟨.start store, input, #[]⟩

/-- Everything that was printed. -/
def output (c : Console) : List Char := c.printed.toList.flatMap (· ++ ['\n'])

end Console

/-- Prints a line. -/
def printLine (line : List Char) : Action Console Unit :=
  modify fun c => { c with printed := c.printed.push line }

/-- Takes all that is left of the standard input. -/
def takeInput : Action Console (List Char) :=
  modifyGet fun c => (c.input, { c with input := [] })

/-- Works on the session. -/
def inSession {α : Type} (act : Action Session α) : Action Console α := fun c =>
  match act c.session with
  | .ok a session => .ok a { c with session }
  | .error e session => .error e { c with session }

/-- The text of an operand: that of the file it names, or else its own. -/
def operandText (store : Store) (operand : String) : List Char :=
  match store.read operand with
  | .ok text => text
  | .error _ => operand.toList

/-- How a command ends. -/
inductive Ending where
  | success
  | failure
deriving DecidableEq, Repr

end Clvm.Command
