import TreeMachine.Machine.Step

/-!
# The machine

A machine holds a linked program and the state that lasts from one call to the next: the
world, the operand stack and the call depth. `Machine.callAll` calls a function or a
library routine by name.
-/

namespace TreeMachine

/-- How a machine is set up. Sizes and depths that are not positive take the default. -/
structure Options where
  heapSize : Int := 0
  maxDepth : Int := 0
  seed : UInt64 := 0
  input : Input := {}
  sink : Sink := {}
  traced : Bool := false

namespace Options

/-- The heap limit in bytes that is used when none is given. -/
def defaultHeapSize : Int := 33554432

/-- The greatest call depth that is used when none is given. -/
def defaultMaxDepth : Int := 100000

def heapLimit (o : Options) : Int :=
  if o.heapSize ≤ 0 then defaultHeapSize else o.heapSize

def depthLimit (o : Options) : Int :=
  if o.maxDepth ≤ 0 then defaultMaxDepth else o.maxDepth

end Options

/-- A linked program with what lasts between calls. -/
structure Machine where
  setup : Machine.Setup
  world : World
  operands : Operands := .empty
  /-- How many frames are active; none between calls. -/
  depth : Nat := 0
  /-- The calls recorded so far, the latest first. -/
  trace : List Machine.Called := []

namespace Machine

open Structured (CodeUnit)
open Linear (Program)

/-- The generator of register fillers for a seed. -/
def fillerOf (seed : UInt64) : Pcg where
  hi := seed
  lo := seed ^^^ 0x9e3779b97f4a7c15

/-- Links a program and sets up a machine for it. -/
def ofProgram (p : Program) (o : Options) : Except Error Machine := do
  p.link
  return {
    setup := { program := p, maxDepth := o.depthLimit.toNat, traced := o.traced }
    world := {
      heap := .empty o.heapLimit
      filler := fillerOf o.seed
      input := o.input
      output := { sink := o.sink } } }

def ofUnit? (u : Option CodeUnit) (o : Options) : Except Error Machine := do
  ofProgram (← Program.ofUnit? u) o

def ofFlat? (u : Option Flat.CodeUnit) (o : Options) : Except Error Machine := do
  ofProgram (← Program.ofFlat? u) o

/-- What a caller outside the program is called in messages. -/
def rootName : String := "<root>"

/-- The state in which a function starts to run for a caller outside the program. -/
def start (m : Machine) (name : String) (addr : Nat) (args : List Int32) :
    Except Fault State := do
  let fn ← callee m.setup.program name addr
  if m.setup.maxDepth ≤ m.depth then throw (.callDepthExceeded m.depth)
  return {
    world := m.world
    operands := m.operands
    frame := newFrame fn addr args m.operands.height
    depth := m.depth + 1
    trace := if m.setup.traced then ⟨fn.name, args, m.depth + 1⟩ :: m.trace else m.trace }

/-- Calls a library routine or a function within a number of steps; output stays pending. -/
def invoke (fuel : Nat) (m : Machine) (name : String) (args : List Int32) :
    Option (Except Fault (List Int32) × Machine) :=
  match m.setup.program.labels[name]? with
  | none =>
    match Routine.ofName? name with
    | none => some (.error (.unresolvedName name), m)
    | some r =>
      match r.run rootName args m.world with
      | .ok results world => some (.ok results, { m with world })
      | .error cause world => some (.error cause, { m with world })
  | some addr =>
    match m.start name addr args with
    | .error cause => some (.error cause, m)
    | .ok s =>
      (run m.setup fuel s).map fun (outcome, s) =>
        let s := match outcome with
          | .ok _ => s
          | .error _ => s.unwind
        (outcome, { m with
          world := s.world, operands := s.operands, depth := s.depth, trace := s.trace })

/-- Ends a call from outside: pending output is passed on, which can fail a call that went
well, and after a failure the operand stack is empty. -/
def settle (m : Machine) (outcome : Except Error (List Int32)) :
    Except Error (List Int32) × Machine :=
  let (flushed, world) := match World.flush m.world with
    | .ok _ world => ((none : Option Fault), world)
    | .error cause world => (some cause, world)
  match outcome, flushed with
  | .ok results, none => (.ok results, { m with world })
  | .ok _, some cause => (.error (.fault cause {}), { m with world, operands := .empty })
  | .error e, _ => (.error e, { m with world, operands := .empty })

/-- Calls a function or library routine by name within a number of steps and gives all its
results. -/
def callAll (fuel : Nat) (m : Machine) (name : String) (args : List Int32) :
    Option (Except Error (List Int32) × Machine) :=
  (invoke fuel m name args).map fun (outcome, after) =>
    let outcome := Error.wrap s!"call {name}" (outcome.mapError fun cause => .fault cause {})
    if m.depth = 0 then after.settle outcome else (outcome, after)

/-- A number of steps that no run in practice exhausts. -/
def patience : Nat := 1 <<< 62

end Machine

end TreeMachine
