import TreeMachine.Command.Flags
import TreeMachine.Command.Log
import TreeMachine.Command.Usage
import TreeMachine.Files
import TreeMachine.Machine.Stream

/-!
# What a command acts on

A command acts on a console: it sees files and an input, and writes to an output, which
may refuse, and to a report of messages, which does not.
-/

namespace TreeMachine.Command

/-- The surroundings of a command. -/
structure Console where
  files : Files := {}
  /-- The directory that relative paths start from, as events name it. -/
  cwd : String := "."
  /-- The directory of the user's own files. -/
  home : String := "."
  stdin : Input := {}
  stdout : Sink := {}
  stderr : Report := #[]

/-- An action of a command. It can end the command with a status, and it fails only where
nothing can be recovered. -/
abbrev Action := ExceptT Nat (StateT Console (Except Error))

namespace Action

/-- Writes a piece of output. What is refused is lost, and the refusal is the result. -/
def offer (text : String) : Action (Option String) :=
  modifyGet fun c =>
    let (refusal, stdout) := c.stdout.writeText text
    (refusal, { c with stdout })

def say (text : String) : Action Unit := do
  let _ ← offer text

def sayAll (pieces : List String) : Action Unit :=
  pieces.forM say

def report (pieces : List Piece) : Action Unit :=
  modify fun c => { c with stderr := c.stderr ++ pieces }

def warn (pieces : List String) : Action Unit :=
  report (pieces.map .text)

def stop {α : Type} (status : Nat) : Action α :=
  throw status

def fail {α : Type} (status : Nat) (message : String) : Action α := do
  warn [s!"Error: {message}\n"]
  stop status

/-- Goes on with a result. An error ends the command, by `report` unless it is a crash. -/
def recover {α : Type} (r : Except Error α) (report : Error → Action α) : Action α :=
  match r with
  | .ok a => return a
  | .error e =>
    match e.crash? with
    | some _ => throwThe Error e
    | none => report e

/-- Goes on with a result; an error ends the command with a status. -/
def orFail {α : Type} (status : Nat) (r : Except Error α) : Action α :=
  recover r fun e => fail status e.message

/-- The status that an action would end the command with. -/
def status (act : Action Unit) : Action Nat :=
  tryCatch (do act; return 0) fun n => return n

end Action

def toolName : String := "irvm"

/-- Reads the options and the arguments of a command. Options that cannot be read end it
with its usage, too few arguments with its usage line. -/
def readArgs (info : Info) (kinds : List (String × Kind)) (args : List String) : Action Flags := do
  match Flags.read kinds [] args with
  | .error p =>
    Action.warn (p.message?.toList.map (· ++ "\n"))
    Action.warn (info.usageText toolName)
    Action.stop 2
  | .ok flags =>
    Action.orFail 2 (requireArgs flags.args 1 info.usage)
    return flags

end TreeMachine.Command
