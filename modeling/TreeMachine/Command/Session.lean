import TreeMachine.Command.Build
import TreeMachine.Command.Call
import TreeMachine.Text.Glyph

/-!
# Interactive sessions

A session calls functions of one program, line by line. Each form of the code has its own
machine, made when it is first used, so that the heap of a form lasts from call to call.
The machines read from one source: what one of them holds is out of reach for the other.
-/

namespace TreeMachine.Command

/-- The state of a session. -/
structure Session where
  build : Build
  /-- Whether calls run the flat form. -/
  lower : Bool := false
  options : Options := {}
  /-- The input that no machine has taken yet. -/
  source : Input := {}
  structured : Option Machine := none
  flat : Option Machine := none

namespace Session

/-- The machine of the current form, made if it is not there. -/
def current (s : Session) : Except Error Machine :=
  match s.lower, s.structured, s.flat with
  | false, some m, _ => .ok m
  | true, _, some m => .ok m
  | lower, _, _ => s.build.machine lower s.options

def keep (s : Session) (m : Machine) : Session :=
  if s.lower then { s with flat := some m } else { s with structured := some m }

/-- Puts a machine on the shared source and the sink. -/
def attach (m : Machine) (source : Input) (sink : Sink) : Machine :=
  { m with world := { m.world with
      input := m.world.input.onto source
      output := { m.world.output with sink } } }

/-- Calls a function with the machine of the current form. -/
def call (s : Session) (c : Call) (sink : Sink) :
    Except Error (Except Error (List Int32) × Session × Sink) :=
  match s.current with
  | .error e => .ok (.error e, s, sink)
  | .ok m => do
    let (outcome, m) ← callMachine (attach m s.source sink) c.name c.args
    return (outcome, { s.keep m with source := m.world.input.source }, m.world.output.sink)

/-- The commands of a session that completion offers. -/
def commands : List String := [":hir", ":lir", ":funcs", ":help", ":quit"]

def helpLines : List String :=
  ["call a function as name(arg, ...) or name arg ...\n",
    ":hir, :lir   switch IR form\n",
    ":funcs       list functions\n",
    ":quit        exit\n"]

/-- Writes pieces one after the other; what is refused of a piece is lost. -/
def writeAll (sink : Sink) (pieces : List String) : Sink :=
  pieces.foldl (fun sink p => (sink.writeText p).2) sink

def switchTo (s : Session) (lower : Bool) (sink : Sink) : Session × Sink :=
  ({ s with lower }, writeAll sink [s!"mode: {formName lower}\n"])

def shown (e : Error) : String :=
  s!"error: {e.message}\n"

def unknownCommand (line : String) (sink : Sink) : Sink :=
  writeAll sink [s!"unknown command {line}. Type :help for help.\n"]

def runCall (s : Session) (line : String) (sink : Sink) : Except Error (Session × Sink) := do
  match Call.parse line with
  | .error e => return (s, writeAll sink [shown e])
  | .ok c =>
    let (outcome, s, sink) ← s.call c sink
    let answer := match outcome with
      | .error e => shown e
      | .ok vs => "= " ++ String.intercalate ", " (vs.map Decimal.ofInt32) ++ "\n"
    return (s, writeAll sink [answer])

/-- Runs a line. The result says whether the session ends. -/
def exec (s : Session) (line : String) (sink : Sink) :
    Except Error (Bool × Session × Sink) := do
  let line := Text.trimmed line
  let stay (r : Session × Sink) := (false, r.1, r.2)
  match line with
  | "" => return (false, s, sink)
  | ":quit" | ":q" | ":exit" => return (true, s, sink)
  | ":hir" => return stay (s.switchTo false sink)
  | ":lir" => return stay (s.switchTo true sink)
  | ":funcs" =>
    return (false, s, writeAll sink [String.intercalate " " s.build.functions ++ "\n"])
  | ":help" | ":h" => return (false, s, writeAll sink helpLines)
  | line =>
    if line.startsWith ":" then
      return (false, s, unknownCommand line sink)
    else
      return stay (← s.runCall line sink)

/-- Refuses a line with stray bytes in it. They cannot be in an argument, and there is no
command and no function with such a name; but the machine is made before its functions are
looked up. -/
def refuse (s : Session) (line : List Glyph) (sink : Sink) : Except Error (Session × Sink) :=
  let line := Text.trimBy (Call.isChar Glyph.char? Text.isBlank) line
  if line.head? == some (.char ':') then .ok (s, unknownCommand (Glyph.text line) sink)
  else
    match Call.readLine Glyph.char? line with
    | .error t =>
      let e := t.error Glyph.quote
      if e.crash?.isSome then .error e else .ok (s, writeAll sink [shown e])
    | .ok (name, _) =>
      let unknown := Error.reason (.unknownFunction (Glyph.quote name))
      match s.current with
      | .error e => .ok (s, writeAll sink [shown e])
      | .ok m => .ok (s.keep m, writeAll sink [shown (.within s!"call {Glyph.text name}" unknown)])

def execBytes (s : Session) (line : List UInt8) (sink : Sink) :
    Except Error (Bool × Session × Sink) :=
  let glyphs := Glyph.ofBytes line
  match Glyph.text? glyphs with
  | some text => s.exec text sink
  | none => (s.refuse glyphs sink).map fun (s, sink) => (false, s, sink)

/-- What can complete a line: functions, library routines and commands. -/
def complete (s : Session) (line : String) : List String :=
  (s.build.functions ++ Routine.all.map Routine.name ++ commands).filter (·.startsWith line)

end Session

end TreeMachine.Command
