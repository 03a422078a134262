import TreeMachine.Command.Console
import TreeMachine.Command.Release
import TreeMachine.Command.Session

/-!
# The interactive command

The command that runs a session. It keeps a history of the lines typed, in a file that
lasts from one session to the next. `Repl.start`, `Repl.line` and `Repl.finish` are the
parts of the command, for one who reads lines as they are typed; `repl` runs it on an
input that is there as a whole. Lines that are too long for the reader count as several.
-/

namespace TreeMachine.Command

/-- The name of the history file in the user's own directory. -/
def historyFile : String := ".irvm_history"

def replInfo : Info where
  name := "repl"
  usage := "irvm repl [OPTIONS] <program.json>"
  description := "Call functions interactively"
  options := [
    { name := "lower", usage := "start in LIR mode" },
    { name := "history", usage := "history file", default := "~/" ++ historyFile }]

def replKinds : List (String × Kind) :=
  [("lower", .switch), ("history", .text)]

def historyLimit : Nat := 1000

/-- Adds a line to a history, the latest last; the earliest give way. -/
def remember (history : List (List UInt8)) (line : List UInt8) : List (List UInt8) :=
  let longer := history ++ [line]
  longer.drop (longer.length - historyLimit)

/-- A running interactive command. -/
structure Repl where
  session : Session
  /-- What reads the lines. The programs of the session read behind it. -/
  reader : Input := {}
  history : List (List UInt8) := []
  historyPath : String

namespace Repl

/-- Where the history is if no other file is named. -/
def defaultHistory (home : String) : String :=
  if home.isEmpty then historyFile else Path.join home historyFile

/-- The history in a file; a file that cannot be read has none. A line that is too long for
a reader, or that is no text, ends it. -/
def readHistory (fs : Files) (path : String) : List (List UInt8) :=
  match fs.open? path with
  | .ok (some content) =>
    let lines := ({ rest := content.toBytes } : Input).stretches content.size
    let kept := lines.takeWhile fun l => l.whole && Glyph.areText l.bytes
    (kept.map (·.bytes)).foldl remember []
  | _ => []

/-- Starts the command: builds the program and greets. -/
def start (args : List String) : Action Repl := do
  let flags ← readArgs replInfo replKinds args
  let c ← get
  let build ← Action.orFail 1 (Build.ofFile c.files (flags.args.headD "") false)
  let historyPath := (flags.text? "history").getD (defaultHistory c.home)
  let version := ({} : Release).version
  let count := build.unit.functions.length
  Action.say s!"{toolName} {version}: {build.name} ({count} functions). Type :help for help.\n"
  return {
    session := { build, lower := (flags.switch? "lower").getD false }
    history := readHistory c.files historyPath
    historyPath }

/-- Runs a line. Lines with something in them are remembered, but not twice in a row. The
result says whether the command ends. -/
def line (r : Repl) (bytes : List UInt8) : Action (Bool × Repl) := do
  let c ← get
  let isEmpty := (Text.trimmed (Utf8.text bytes)).isEmpty
  let keep := !isEmpty && r.history.getLast? != some bytes
  let history := if keep then remember r.history bytes else r.history
  let (quit, session, stdout) ← { r.session with source := c.stdin }.execBytes bytes c.stdout
  set { c with stdout, stdin := session.source }
  return (quit, { r with session, history })

/-- Writes the history; a file that cannot be written is left alone. -/
def finish (r : Repl) : Action Unit :=
  modify fun c =>
    match c.files.write r.historyPath (.bytes (r.history.flatMap (· ++ [10]))) with
    | .ok files => { c with files }
    | .error _ => c

def next (r : Repl) : Action (Option (List UInt8) × Repl) := do
  let c ← get
  let (stretch, reader) := (r.reader.onto c.stdin).readStretch
  set { c with stdin := reader.source }
  return (stretch.map (·.bytes), { r with reader })

/-- Runs lines until one ends the command, but not more than `n`. At the end of the lines
there is an empty line of output. -/
def lines (r : Repl) : Nat → Action Repl
  | 0 => return r
  | n + 1 => do
    match ← r.next with
    | (none, r) =>
      Action.say "\n"
      return r
    | (some bytes, r) =>
      let (quit, r) ← r.line bytes
      if quit then return r else r.lines n

end Repl

/-- The command. Every line takes at least one byte of the input, so there are no more of
them than it has bytes. -/
def repl (args : List String) : Action Unit := do
  let r ← Repl.start args
  let c ← get
  let r ← r.lines (c.stdin.rest.length + 1)
  r.finish

end TreeMachine.Command
