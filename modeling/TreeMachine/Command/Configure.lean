import TreeMachine.Command.Config
import TreeMachine.Command.Console

/-!
# Writing configuration files

The command that writes a configuration file with the given settings.
-/

namespace TreeMachine.Command

def configureInfo : Info where
  name := "config"
  usage := "irvm config [OPTIONS] <file.json>"
  description := "Write a configuration file for run -config"
  examples := ["irvm config -heap 65536 irvm.json"]
  options := [
    { name := "force", usage := "overwrite an existing file" },
    { name := "heap", usage := "heap size in bytes", default := "33554432" },
    { name := "depth", usage := "maximum call depth", default := "100000" },
    { name := "lower", usage := "run the lowered LIR form by default" },
    { name := "seed", usage := "seed for unset register values", default := "0" }]

def configureKinds : List (String × Kind) :=
  [("force", .switch), ("heap", .int), ("depth", .int), ("lower", .switch), ("seed", .word)]

def Config.ofFlags (f : Flags) : Config :=
  let default : Config := {}
  { default with
    heapSize := (f.int? "heap").getD default.heapSize
    maxCallDepth := (f.int? "depth").getD default.maxCallDepth
    lower := (f.switch? "lower").getD default.lower
    seed := (f.word? "seed").getD default.seed }

def configure (args : List String) : Action Unit := do
  let flags ← readArgs configureInfo configureKinds args
  let c ← get
  let path := flags.args.headD ""
  let config := Config.ofFlags flags
  if !(flags.switch? "force").getD false && c.files.has path then
    Action.fail 1 s!"{path} already exists (use -force to overwrite)"
  if config.heapSize ≤ 0 || config.maxCallDepth ≤ 0 then
    Action.fail 2 "heap and depth must be positive"
  let files ← Action.orFail 1 (config.save c.files path)
  set { c with files }
  Action.say s!"wrote {path}\n"

end TreeMachine.Command
