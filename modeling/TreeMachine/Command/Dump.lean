import TreeMachine.Command.Build
import TreeMachine.Command.Console
import TreeMachine.Flat.Printer

/-!
# Printing code

The command that prints the code of a program: either form, as it is written or with the
addresses of its nodes.
-/

namespace TreeMachine.Command

def dumpInfo : Info where
  name := "dump"
  usage := "irvm dump [-lir] [-linear] <program.json>"
  description := "Print the generated IR"
  options := [
    { name := "lir", usage := "print the lowered LIR instead of HIR" },
    { name := "linear", usage := "print the linearized instruction list with addresses" }]

/-- The text of a program's code, in the pieces in which it is written. -/
def Build.dump (b : Build) (lower linear : Bool) : Except Error (List String) := do
  if linear then return (← b.linear lower).listingLines
  else if lower then return [(← b.flat).text]
  else return [b.unit.text]

def dump (args : List String) : Action Unit := do
  let flags ← readArgs dumpInfo [("lir", .switch), ("linear", .switch)] args
  let c ← get
  let lower := (flags.switch? "lir").getD false
  let linear := (flags.switch? "linear").getD false
  let b ← Action.orFail 1 (Build.ofFile c.files (flags.args.headD "") lower)
  let pieces ← Action.orFail 1 (b.dump lower linear)
  Action.sayAll pieces

end TreeMachine.Command
