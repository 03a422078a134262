import TreeMachine.Document.Load
import TreeMachine.Files
import TreeMachine.Flat.Lower
import TreeMachine.Linear.Listing
import TreeMachine.Machine.Basic
import TreeMachine.Structured.OfTree

/-!
# Built programs

A program document carried through the whole way: read from its file, compiled to
structured code and, where it is asked for, lowered to flat code.
-/

namespace TreeMachine.Command

/-- A program that has been compiled. -/
structure Build where
  /-- The path that errors name. -/
  path : String
  /-- The name of the program. -/
  name : String
  unit : Structured.CodeUnit

namespace Build

def ofText (path text : String) : Except Error Build := do
  let program ← Document.load text path
  let unit ← Error.wrap s!"generate {path}" (Structured.CodeUnit.ofTree program)
  return { path, name := program.name, unit }

def flat (b : Build) : Except Error Flat.CodeUnit :=
  Error.wrap s!"lower {b.path}" (Flat.CodeUnit.ofStructured b.unit)

/-- Reads and compiles the document at a path. If the flat form is going to be used, it has
to exist. -/
def ofFile (fs : Files) (path : String) (lower : Bool) : Except Error Build := do
  let text ← match fs.open? path with
    | .ok (some content) => pure content.toText
    | .ok none => .error (.reason .malformedProgram)
    | .error t =>
      .error (.within "failed to open program" (.reason (.system s!"open {path}: {t.text}")))
  let b ← ofText path text
  if lower then
    let _ ← b.flat
  return b

def machine (b : Build) (lower : Bool) (o : Options) : Except Error Machine :=
  if lower then do
    let l ← b.flat
    Machine.ofFlat? (some l) o
  else Machine.ofUnit? (some b.unit) o

/-- One of the two forms with its nodes at their addresses. -/
def linear (b : Build) (lower : Bool) : Except Error Linear.Program :=
  if lower then do
    let l ← b.flat
    Linear.Program.ofFlat l
  else Linear.Program.ofUnit b.unit

/-- The names of the functions in the order of declaration. -/
def functions (b : Build) : List String :=
  b.unit.functions.map (·.name)

/-- Checks one form: it gets the same addresses when they are given again, and all its
names are bound. -/
def checkForm (b : Build) (lower : Bool) : Except Error Unit := do
  let first ← b.linear lower
  let second ← b.linear lower
  Error.wrap "nondeterministic linearization" (first.same second)
  Error.wrap "link" first.link

def check (b : Build) : Except Error Unit := do
  b.checkForm false
  b.checkForm true

end Build

def formName (lower : Bool) : String :=
  if lower then "LIR" else "HIR"

/-- The error of a run that took more steps than there is patience for. -/
def endless : Error :=
  .reason (.system "the run does not end")

def callMachine (m : Machine) (name : String) (args : List Int32) :
    Except Error (Except Error (List Int32) × Machine) :=
  match m.callAll Machine.patience name args with
  | some r => .ok r
  | none => .error endless

end TreeMachine.Command
