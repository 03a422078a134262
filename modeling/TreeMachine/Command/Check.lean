import TreeMachine.Command.Build
import TreeMachine.Command.Console

/-!
# Checking programs

The command that builds programs in both forms and links them. A failure of one program
does not keep the others from being checked, and results are reported in the order of the
arguments.
-/

namespace TreeMachine.Command

def checkInfo : Info where
  name := "check"
  usage := "irvm check <program.json>..."
  description := "Build, lower and link programs concurrently"
  examples := ["IRVM_MAX_CONCURRENCY=2 irvm check testdata/programs/*.json"]

def checkFile (fs : Files) (path : String) : Except Error Unit := do
  let b ← Build.ofFile fs path true
  b.check

/-- Reports the result for one path and says whether the check failed. -/
def reportCheck (path : String) (result : Except Error Unit) : Action Bool :=
  Action.recover (result.map fun _ => false) (fun e => do
    Action.warn [s!"FAIL {path}: {e.message}\n"]
    return true)

def check (args : List String) : Action Unit := do
  let flags ← readArgs checkInfo [] args
  let c ← get
  let failed ← flags.args.filterM fun path => do
    let failed ← reportCheck path (checkFile c.files path)
    unless failed do Action.say s!"ok   {path}\n"
    return failed
  unless failed.isEmpty do
    Action.warn [s!"{failed.length} of {flags.args.length} programs failed\n"]
    Action.stop 1

end TreeMachine.Command
