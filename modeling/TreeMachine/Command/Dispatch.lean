import TreeMachine.Command.Check
import TreeMachine.Command.Configure
import TreeMachine.Command.Dump
import TreeMachine.Command.Repl
import TreeMachine.Command.Run

/-!
# The command line

Picks the command that the first argument names and runs it. The result is the status with
which the tool ends: 0 for success, 1 for a failure, 2 for a command line that makes no
sense.
-/

namespace TreeMachine.Command

def versionInfo : Info where
  name := "version"
  usage := "irvm version [--json]"
  description := "Print version information"

/-- The commands in the order in which the usage lists them. -/
def commands : List Info :=
  [runInfo, dumpInfo, checkInfo, replInfo, configureInfo, versionInfo]

/-- Prints usage: of the tool, or of the command that is named. -/
def help : List String → Action Unit
  | [] => Action.sayAll (toolUsage toolName commands)
  | name :: _ =>
    match commands.find? (·.name == name) with
    | some info => Action.sayAll (info.usageText toolName)
    | none => do
      Action.warn [s!"unknown command: {name}\n"]
      Action.stop 2

/-- Prints the version. It fails if the end of the text is refused. -/
def version (release : Release) (args : List String) : Action Unit := do
  let asJson := args.any fun a => a == "--json" || a == "-j"
  let pieces := if asJson then [release.json toolName] else release.lines toolName
  let refused ← pieces.foldlM (fun _ p => Action.offer p) none
  match refused with
  | some why => Action.fail 1 why
  | none => return ()

def dispatch (args : List String) (release : Release := {}) : Action Unit :=
  match args with
  | [] => do
    Action.warn (toolUsage toolName commands)
    Action.stop 2
  | name :: rest =>
    match name with
    | "help" | "-h" | "--help" => help rest
    | "version" | "--version" => version release rest
    | "run" => run rest
    | "dump" => dump rest
    | "check" => check rest
    | "repl" => repl rest
    | "config" => configure rest
    | other => do
      Action.warn [s!"unknown subcommand: {other}\n"]
      Action.warn (toolUsage toolName commands)
      Action.stop 2

/-- Does something on a console and gives the status it ends with. -/
def Console.perform (c : Console) (act : Action Unit) : Except Error (Nat × Console) :=
  (act.run.run c).map fun
    | (.ok _, c) => (0, c)
    | (.error status, c) => (status, c)

end TreeMachine.Command
