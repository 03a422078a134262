import TreeMachine.Command.Config
import TreeMachine.Command.Console
import TreeMachine.Command.Session
import TreeMachine.Watch.Debounce
import TreeMachine.Watch.Watcher

/-!
# Running a function

The command that runs one function of a program and prints its first result. It can watch
the program's file and run again whenever it changes.
-/

namespace TreeMachine.Command

open Watch (Event Debounce System Watcher)

def runInfo : Info where
  name := "run"
  usage := "irvm run [OPTIONS] <program.json> [function] [args...]"
  description := "Run a function (default main) and print its first result"
  examples := ["irvm run testdata/programs/factorial.json factorial_tailWrap 5",
    "irvm run -lower -watch testdata/programs/collatz.json"]
  options := [
    { name := "lower", usage := "run the lowered LIR form instead of HIR" },
    { name := "heap", usage := "heap size in bytes", default := "33554432" },
    { name := "depth", usage := "maximum call depth", default := "100000" },
    { name := "seed", usage := "seed for unset register values", default := "0" },
    { name := "config", usage := "configuration file" },
    { name := "watch", usage := "re-run whenever the program file changes" },
    { name := "poll", usage := "poll for changes instead of using OS notifications" },
    { name := "v", usage := "verbose output" },
    { name := "debug", usage := "trace every call" }]

def runKinds : List (String × Kind) :=
  [("lower", .switch), ("heap", .int), ("depth", .int), ("seed", .word), ("config", .text),
    ("watch", .switch), ("poll", .switch), ("v", .switch), ("debug", .switch)]

/-- Settings with the options that were given on top. -/
def Config.override (c : Config) (f : Flags) : Config where
  verbose := (f.switch? "v").getD c.verbose
  debug := (f.switch? "debug").getD c.debug
  heapSize := (f.int? "heap").getD c.heapSize
  maxCallDepth := (f.int? "depth").getD c.maxCallDepth
  lower := (f.switch? "lower").getD c.lower
  seed := (f.word? "seed").getD c.seed

/-- One function to run. -/
structure Job where
  path : String
  function : String := "main"
  args : List Int32 := []
  config : Config := {}
  /-- Whether the file is watched, and whether by looking at it again and again. -/
  watched : Bool := false
  polled : Bool := false

namespace Job

def log (j : Job) : Log where
  verbose := j.config.verbose
  debug := j.config.debug

def note (j : Job) (level : Level) (message : String) : Action Unit :=
  Action.report (j.log.textLine level message)

/-- Goes on with a result; an error is logged and ends the command with a status. -/
def orLog {α : Type} (j : Job) (status : Nat) (r : Except Error α) : Action α :=
  Action.recover r fun e => do
    j.note .error e.message
    Action.stop status

/-- How the machine of the job is set up on a console. -/
def options (j : Job) (c : Console) : Options where
  heapSize := j.config.heapSize.toInt
  maxDepth := j.config.maxCallDepth.toInt
  seed := j.config.seed
  input := c.stdin
  sink := c.stdout
  traced := j.config.debug

/-- Calls the function on a machine: output and input move on, and the calls are traced. -/
def call (j : Job) (m : Machine) : Action (Except Error (List Int32) × Machine) := do
  let (outcome, m) ← callMachine m j.function j.args
  modify fun c => { c with
    stdout := m.world.output.sink
    stdin := m.world.input.source }
  m.trace.reverse.forM fun t => j.note .debug t.text
  return (outcome, m)

/-- Builds the program and runs the function once. -/
def exec (j : Job) : Action Unit := do
  let c ← get
  let lower := j.config.lower
  let b ← j.orLog 1 (Build.ofFile c.files j.path lower)
  let m ← j.orLog 1 (Error.wrap s!"link {j.path}" (b.machine lower (j.options c)))
  j.note .info
    s!"running {j.function}({Decimal.bracketed j.args}) from {j.path} as {formName lower}"
  let (outcome, m) ← j.call m
  let results ← j.orLog 1 outcome
  Action.sayAll ((results.take 1).map (Decimal.ofInt32 · ++ "\n"))
  let heap := m.world.heap
  Action.report (j.log.line .info
    [.text "finished in ", .elapsed, .text s!", heap {heap.used}/{heap.limit} bytes"])

end Job

/-- Reads the arguments of the command into a job. -/
def prepareRun (args : List String) : Action Job := do
  let flags ← readArgs runInfo runKinds args
  let c ← get
  let config ← Action.orFail 1 (Config.load c.files ((flags.text? "config").getD ""))
  let job : Job := {
    path := flags.args.headD ""
    function := (flags.args.drop 1).headD "main"
    config := config.override flags
    watched := (flags.switch? "watch").getD false
    polled := (flags.switch? "poll").getD false }
  let args ← job.orLog 2 (parseArgs (flags.args.drop 2))
  return { job with args }

/-! ### Watching -/

/-- A job that is watching its file. -/
structure Watching (σ : Type) where
  job : Job
  /-- The state of the surroundings. -/
  state : σ
  watcher : Watcher
  debounce : Debounce := .start
  /-- The status of the last run. -/
  status : Nat

namespace Watching

variable {σ : Type}

/-- Starts to follow the file of a job and runs it for the first time. The file need not be
there, but notifications need its directory. -/
def start (sys : System σ) (s : σ) (j : Job) : Action (Watching σ) := do
  let (outcome, state, watcher) := (Watcher.new j.polled).fulfil sys s (.add j.path)
  j.orLog 1 (Error.wrap s!"watch {j.path}" (outcome.mapError fun why => .reason (.system why)))
  return { job := j, state, watcher, status := ← Action.status j.exec }

/-- Runs the job again for a change that was delivered. -/
def rerun (w : Watching σ) (e : Event) : Action (Watching σ) := do
  w.job.note .info s!"{e.path}: {e.op.text}, re-running"
  return { w with status := ← Action.status w.job.exec }

/-- Takes a burst of changes and, when it is quiet again, runs the job for the last. -/
def absorb (w : Watching σ) (events : List Event) : Action (Watching σ) := do
  let (delivered, debounce) := w.debounce.run (Debounce.burst events)
  delivered.foldlM rerun { w with debounce }

end Watching

/-- The command in surroundings that are edited while it watches. It ends after the last edit,
with the status of the last run; without watching, there are no edits to wait for. -/
def runThrough {σ ε : Type} (sys : System σ) (s : σ) (files : σ → Files)
    (edit : σ → ε → Watcher → List Event × σ × Watcher) (edits : List ε) (args : List String) :
    Action Unit := do
  let job ← prepareRun args
  if job.watched then
    let w ← edits.foldlM (fun w e => do
      let (events, state, watcher) := edit w.state e w.watcher
      modify fun c => { c with files := files state }
      { w with state, watcher }.absorb events) (← Watching.start sys s job)
    Action.stop w.status
  else job.exec

/-- The command. Watching is left to the one who can wait for changes: a job that asks for
it runs once. -/
def run (args : List String) : Action Unit := do
  (← prepareRun args).exec

end TreeMachine.Command
