import Std.Time.Zoned
import TreeMachine.Command.Dispatch

/-!
# The program

The outer layer: it takes a picture of the files that the arguments name, runs the command
on it, and carries what the command did over to the real files and streams. Commands that
wait, for lines or for changes, are run piece by piece.
-/

namespace TreeMachine.Shell

open Command

/-- The paths that arguments may name, as they are or as values of options. -/
def mentioned (home : String) (args : List String) : List String :=
  let values := args.filterMap fun a => (Flags.splitValue a.toList).2
  Repl.defaultHistory home :: args ++ values

/-- The time of a file's last change in nanoseconds. -/
def modifiedTime (path : String) : IO Int := do
  let place := (← IO.currentDir) / path
  try
    let t := (← place.metadata).modified
    return t.sec * 1000000000 + t.nsec.toNat
  catch _ => return 0

/-- Adds what is at a path to a picture of the files. -/
def addPath (fs : Files) (path : String) : IO Files := do
  let place := (← IO.currentDir) / path
  let modified ← modifiedTime path
  if ← place.isDir then
    return fs.put (Path.clean path) none modified
  try
    let bytes ← IO.FS.readBinFile path
    return fs.put (Path.clean path) (some (.bytes bytes.toList)) modified
  catch _ => return fs

/-- A picture of the files at some paths and above them. -/
def picture (paths : List String) : IO Files :=
  (paths.flatMap Path.withAbove).eraseDups.foldlM addPath {}

def clock : IO String := do
  let t ← Std.Time.PlainTime.now
  let two (n : Int) := if n < 10 then s!"0{n}" else toString n
  return two t.hour.val ++ ":" ++ two t.minute.val ++ ":" ++ two t.second.val

/-- Carries over what a command did: output, messages and files. The console is left with
nothing to carry over. -/
def publish (before : Files) (c : Console) (started : Nat) : IO Console := do
  let stdout ← IO.getStdout
  stdout.write c.stdout.delivered
  stdout.flush
  let elapsed := durationText (((← IO.monoNanosNow) - started) / 1000)
  (← IO.getStderr).putStr (c.stderr.fill (← clock) elapsed)
  for (path, content) in c.files.changesSince before do
    IO.FS.writeBinFile path (ByteArray.mk content.toBytes.toArray)
  return { c with stdout := {}, stderr := #[] }

/-- Performs an action on a console and carries over what it did. The result is there if
the command goes on. -/
def perform {α : Type} (c : Console) (act : Action α) : IO (Except UInt32 α × Console) := do
  let started ← IO.monoNanosNow
  match act.run.run c with
  | .error e =>
    (← IO.getStderr).putStrLn e.message
    return (.error 2, c)
  | .ok (r, after) =>
    let after ← publish c.files after started
    return (r.mapError UInt32.ofNat, after)

/-- The status of an action that may have ended the command. -/
def statusOf : Except UInt32 Unit → UInt32
  | .ok _ => 0
  | .error status => status

partial def readAll (stdin : IO.FS.Stream) (seen : ByteArray) : IO ByteArray := do
  let more ← stdin.read 4096
  if more.isEmpty then return seen else readAll stdin (seen ++ more)

/-- Performs an action that may use the standard input. The input is read only if it turns
out to be asked for; what was done up to there is done again. -/
def performReading (c : Console) (act : Action Unit) : IO (UInt32 × Console) := do
  let refusing := { c with stdin := { failure := some "unread" } }
  let asked := match act.run.run refusing with
    | .ok (_, after) => after.stdin.touched
    | .error _ => false
  let c ← if asked then do
      let bytes ← readAll (← IO.getStdin) ByteArray.empty
      pure { c with stdin := { rest := bytes.toList } }
    else pure c
  let (r, c) ← perform c act
  return (statusOf r, c)

/-- Runs lines as they are typed. Programs find no input but what is typed for them, which
the prompt has taken already. -/
partial def converse (stdin : IO.FS.Stream) (r : Repl) (c : Console) : IO UInt32 := do
  (← IO.getStdout).putStr "irvm> "
  (← IO.getStdout).flush
  let line ← stdin.getLine
  let act := if line.isEmpty then do Action.say "\n"; return (true, r)
    else r.line (Input.chomp line.toUTF8.toList)
  match ← perform c act with
  | (.error status, _) => return status
  | (.ok (true, r), c) =>
    let (ended, _) ← perform c r.finish
    return statusOf ended
  | (.ok (false, r), c) => converse stdin r c

/-- Runs a session, on lines as they are typed or on an input that is there as a whole. -/
def startRepl (c : Console) (args : List String) : IO UInt32 := do
  let stdin ← IO.getStdin
  if ← stdin.isTty then
    match ← perform c (Repl.start args) with
    | (.error status, _) => return status
    | (.ok r, c) => converse stdin r c
  else return (← performReading c (repl args)).1

/-- Looks at the file of a job again and again, and runs it after every change. -/
partial def follow (paths : List String) (w : Watching Files) (pending : List Watch.Event)
    (c : Console) : IO UInt32 := do
  IO.sleep (if pending.isEmpty then 250 else 100)
  let files ← picture paths
  let (events, watcher) := w.watcher.observe (Watch.lookAt files) []
  let w := { w with watcher }
  let c := { c with files }
  if pending.isEmpty || !events.isEmpty then follow paths w (pending ++ events) c
  else
    match ← perform c (w.absorb pending) with
    | (.error status, _) => return status
    | (.ok w, c) => follow paths w [] c

/-- The surroundings of a watcher that looks at files: the system watches what is there. -/
def surroundings (cwd : String) : Watch.System Files where
  absolute _ name := .ok (Path.join cwd name)
  serve files
    | .watch dir =>
      match files.locate dir with
      | .ok (.vacant _) => (.error Files.Trouble.absent.text, files)
      | .error t => (.error t.text, files)
      | _ => (.ok (), files)
    | .unwatch _ => (.ok (), files)
  look := Watch.lookAt

/-- Runs a job, and goes on watching if it asks for that. -/
def startRun (paths : List String) (c : Console) (args : List String) : IO UInt32 := do
  match (prepareRun args).run.run c with
  | .ok (.ok job, _) =>
    if !job.watched then return (← performReading c job.exec).1
    let target := Path.join c.cwd job.path
    let paths := target :: paths
    let c := { c with files := ← picture paths }
    match ← perform c (Watching.start (surroundings c.cwd) c.files job) with
    | (.error status, _) => return status
    | (.ok w, c) =>
      let poll := ({} : Watch.Poll).add (Watch.lookAt c.files) target
      follow paths { w with watcher := .poll poll } [] c
  | _ =>
    let (r, _) ← perform c (run args)
    return statusOf r

end TreeMachine.Shell

open TreeMachine TreeMachine.Command TreeMachine.Shell in
def main (args : List String) : IO UInt32 := do
  let home := (← IO.getEnv "HOME").getD ""
  let cwd := (← IO.currentDir).toString
  let paths := mentioned home args
  let c : Console := { files := ← picture paths, cwd, home }
  match args with
  | "run" :: rest => startRun paths c rest
  | "repl" :: rest => startRepl c rest
  | _ =>
    let (r, _) ← perform c (dispatch args)
    return statusOf r
