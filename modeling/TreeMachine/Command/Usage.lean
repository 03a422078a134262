import TreeMachine.Error
import TreeMachine.Text.Blank

/-!
# Usage texts

What a command line tool prints about itself and about each of its commands. A text is a
list of pieces, in the order in which they are written.
-/

namespace TreeMachine.Command

/-- An option of a command as its usage shows it. -/
structure OptionInfo where
  name : String
  usage : String
  default : String := ""
  required : Bool := false
  deriving Repr, DecidableEq

/-- A command as its usage shows it. -/
structure Info where
  name : String
  usage : String
  description : String
  examples : List String := []
  options : List OptionInfo := []
  deriving Repr, DecidableEq

def toolUsage (tool : String) (commands : List Info) : List String :=
  let listed := if commands.isEmpty then [] else
    ["COMMANDS:\n"] ++
    commands.map (fun c => s!"    {Text.padRight c.name 12} {c.description}\n") ++ ["\n"]
  [s!"{tool} - HIR/LIR interpreter\n\n", "USAGE:\n", s!"    {tool} <command> [OPTIONS]\n\n"] ++
    listed ++ [s!"Use '{tool} help <command>' for more information about a command.\n"]

/-- The lines about an option: its name and what it does, then its default. -/
def OptionInfo.lines (o : OptionInfo) : List String :=
  let required := if o.required then " (required)" else ""
  let column (s : String) := Text.padRight s 20 ++ " "
  (column ("    -" ++ o.name) ++ o.usage ++ required ++ "\n") ::
    if o.default.isEmpty then [] else [column "" ++ s!"Default: {o.default}\n"]

def Info.usageText (tool : String) (c : Info) : List String :=
  let options := if c.options.isEmpty then [] else
    ["OPTIONS:\n"] ++ c.options.flatMap OptionInfo.lines ++ ["\n"]
  let examples := if c.examples.isEmpty then [] else
    ["EXAMPLES:\n"] ++ c.examples.map (fun e => s!"    {e}\n") ++ ["\n"]
  [s!"{tool} {c.name} - {c.description}\n\n", "USAGE:\n", s!"    {c.usage}\n\n"] ++
    options ++ examples

def requireArgs (args : List String) (least : Int) (usage : String) : Except Error Unit :=
  if (args.length : Int) < least then .error (.reason (.tooFewArguments usage)) else .ok ()

end TreeMachine.Command
