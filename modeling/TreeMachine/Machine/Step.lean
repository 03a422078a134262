import TreeMachine.Linear.Basic
import TreeMachine.Machine.Library
import TreeMachine.Machine.Operands
import TreeMachine.Machine.Word
import TreeMachine.Structured.Printer

/-!
# Steps of the machine

The machine runs linear code one node at a time. The parts of a node have run before it
and have left their operands on the stack, the leftmost deepest. Every call has a frame of
its own; a call waits in its caller until the callee's frame is left.

`step` is one node, or the end of a frame; `run` repeats it within a step budget.
-/

namespace TreeMachine.Machine

open Structured (Node)
open Linear (Program Range)

/-- What stays fixed during a run. -/
structure Setup where
  program : Program
  maxDepth : Nat
  /-- Whether calls are recorded. -/
  traced : Bool := false

/-- A call in progress. -/
structure Frame where
  fn : Range
  /-- The address that runs next; a waiting frame stands at its call. -/
  ip : Int
  regs : Registers := {}
  /-- The height of the operand stack when the frame was entered. -/
  base : Nat

/-- A recorded call: the function, its arguments and how deep it is nested. -/
structure Called where
  name : String
  args : List Int32
  depth : Nat
  deriving Repr, DecidableEq

def Called.text (c : Called) : String :=
  s!"call {c.name}{Decimal.bracketed c.args} depth={c.depth}"

/-- The state of a run. -/
structure State where
  world : World
  operands : Operands
  frame : Frame
  /-- The frames that wait for a call, the innermost first. -/
  waiting : List Frame := []
  /-- How many frames are active. -/
  depth : Nat
  /-- The recorded calls, the latest first. -/
  trace : List Called := []

abbrev Exec := EStateM Fault State

@[inline] def onWorld {α : Type} (a : Act α) : Exec α := fun s =>
  match s with
  | { world, operands, frame, waiting, depth, trace } =>
    match a world with
    | .ok x world => .ok x { world, operands, frame, waiting, depth, trace }
    | .error cause world => .error cause { world, operands, frame, waiting, depth, trace }

/-! ### Operands -/

@[inline] def push (o : Operand) : Exec Unit :=
  modify fun s => { s with operands := s.operands.push o }

def pop (operation : String) : Exec Operand := fun s =>
  match s.operands.pop operation with
  | .ok (o, operands) => .ok o { s with operands }
  | .error cause => .error cause s

/-- Takes the top `n` operands, the deepest first. -/
def popMany (operation : String) (n : Nat) : Exec (List Operand) := fun s =>
  match s.operands.popMany operation n with
  | .ok (os, operands) => .ok os { s with operands }
  | .error cause => .error cause s

def setRegister (name : String) (v : Int32) : Exec Unit :=
  modify fun s => { s with frame := { s.frame with regs := s.frame.regs.set name v } }

/-- The value of a register that was not set when it was read. It may have been set since;
otherwise a filler is drawn, and the register keeps it. -/
def fill (name : String) : Exec Int32 := do
  match (← get).frame.regs.get? name with
  | some v => return v
  | none =>
    let v ← onWorld World.drawFiller
    setRegister name v
    return v

/-- The word an operand stands for. A library routine counts as minus one. -/
def valueOf : Operand → Exec Int32
  | .value v => return v
  | .mem _ v => return v
  | .reg _ (some v) => return v
  | .reg name none => fill name
  | .symbol _ (some addr) => return Int32.ofNat addr
  | .symbol _ none => return -1

def valuesOf : List Operand → Exec (List Int32)
  | [] => return []
  | o :: os => do
    let v ← valueOf o
    return v :: (← valuesOf os)

def popValue (operation : String) : Exec Int32 := do
  valueOf (← pop operation)

def popValues (operation : String) (n : Nat) : Exec (List Int32) := do
  valuesOf (← popMany operation n)

/-! ### Calls -/

/-- How a run goes on after a node. -/
inductive Flow where
  /-- At the next address. -/
  | next
  /-- At another address. -/
  | goto (addr : Int)
  /-- Back in the caller, with results. -/
  | leave (results : List Int32)
  /-- In a called function. -/
  | enter (fn : Range) (addr : Int) (args : List Int32)

/-- Hands results to the node that called: they go to the result registers, and a call in
an expression leaves the first one, or zero. A call statement checks their number. -/
def deliver (n : Node) (results : List Int32) : Exec Unit := do
  modify fun s =>
    { s with frame := { s.frame with regs := s.frame.regs.setAll Structured.retReg 1 results } }
  match n with
  | .stmt (.call returns target _) =>
    if 0 < returns ∧ (results.length : Int) < returns then
      throw (.returnCount target.text returns results.length)
  | _ => push (.value (results.headD 0))

/-- The function that is entered at an address. A function that is called by its name is
taken by name, which matters for empty ones. -/
def callee (p : Program) (name : String) (addr : Int) : Except Fault Range :=
  match p.entry name with
  | some r =>
    if (r.start : Int) = addr then .ok r else located
  | none => located
where
  located : Except Fault Range :=
    match p.functionAt addr with
    | some r => .ok r
    | none => .error (.badInstruction addr)

/-- Calls what an operand stands for. Library routines run at once and give their results;
a function of the program is entered. -/
def dispatch (p : Program) (target : Operand) (args : List Int32) :
    Exec (List Int32 ⊕ Range × Int) := do
  match target with
  | .symbol name none =>
    match Routine.ofName? name with
    | some r =>
      let caller := (← get).frame.fn.name
      return .inl (← onWorld (r.run caller args))
    | none => throw (.unresolvedName name)
  | .symbol name (some addr) => enterAt name addr
  | .value v => enterAt "" v.toInt
  | o => throw (.operandTag "call" o.kind)
where
  enterAt (name : String) (addr : Int) : Exec (List Int32 ⊕ Range × Int) :=
    match callee p name addr with
    | .ok r => return .inr (r, addr)
    | .error cause => throw cause

/-- Takes arguments and target from the stack and calls. -/
def call (p : Program) (n : Node) (operation : String) (argc : Nat) : Exec Flow := do
  let args ← popValues operation argc
  let target ← pop operation
  match ← dispatch p target args with
  | .inl results =>
    deliver n results
    return .next
  | .inr (fn, addr) => return .enter fn addr args

/-! ### Nodes -/

def assign (target : Operand) (v : Int32) : Exec Unit :=
  match target with
  | .reg name _ => setRegister name v
  | .mem addr _ => onWorld (World.store addr v)
  | o => throw (.operandTag "move" o.kind)

/-- The address a label is bound to; linked code has no other labels. -/
def addressOf (p : Program) (label : String) : Int :=
  ((p.labels[label]?).getD 0 : Nat)

def exec (p : Program) (n : Node) : Exec Flow := do
  match n with
  | .expr (.const v) =>
    push (.value v)
    return .next
  | .expr (.temp name) =>
    push (.reg name ((← get).frame.regs.get? name))
    return .next
  | .expr (.name label) =>
    push (.symbol label p.labels[label]?)
    return .next
  | .expr (.mem _) =>
    let addr ← popValue "mem"
    let v ← onWorld (World.inspect (·.load addr))
    push (.mem addr v)
    return .next
  | .expr (.binop op _ _) =>
    match ← popValues op.text 2 with
    | [l, r] =>
      match Word.binop op l r with
      | .ok v =>
        push (.value v)
        return .next
      | .error cause => throw cause
    | _ => return .next
  | .expr (.unop op _) =>
    let v ← popValue op.text
    push (.value (Word.unop op v))
    return .next
  | .expr (.call _ args) => call p n "call" args.length
  | .expr (.eseq _ _) => return .next
  | .stmt (.seq _) => return .next
  | .stmt (.move _ _) =>
    let v ← popValue "move"
    let target ← pop "move"
    assign target v
    return .next
  | .stmt (.exp _) =>
    let _ ← pop "exp"
    return .next
  | .stmt (.jump _) =>
    match ← pop "jump" with
    | .symbol name none => throw (.operandTag "jump" s!"library routine {name}")
    | .symbol _ (some addr) => return .goto addr
    | target =>
      let v ← valueOf target
      return .goto v.toInt
  | .stmt (.cjump _ yes no) =>
    let v ← popValue "cjump"
    return .goto (addressOf p (if v ≠ 0 then yes else no))
  | .stmt (.ret values) =>
    return .leave (← popValues "return" values.length)
  | .stmt (.call _ _ args) => call p n "callstmt" args.length
  | .stmt (.label _) => return .next
  | .stmt .skip => return .next

/-! ### Frames -/

/-- Whether a run goes on. -/
inductive Signal where
  | running
  | finished (results : List Int32)

/-- Leaves the running frame. What it left on the stack is dropped, and the caller goes on
after its call. -/
def leave (p : Program) (results : List Int32) : Exec Signal := do
  modify fun s =>
    { s with operands := s.operands.truncate s.frame.base, depth := s.depth - 1 }
  let s ← get
  match s.waiting with
  | [] => return .finished results
  | caller :: waiting =>
    set { s with frame := caller, waiting }
    match p.code[caller.ip.toNat]? with
    | some n =>
      deliver n results
      modify fun s => { s with frame := { s.frame with ip := s.frame.ip + 1 } }
      return .running
    | none => return .running

/-- The frame of a called function, with its arguments in their registers. -/
def newFrame (fn : Range) (addr : Int) (args : List Int32) (base : Nat) : Frame where
  fn := fn
  ip := addr
  regs := Registers.setAll {} Structured.argReg 1 args
  base := base

def enter (setup : Setup) (fn : Range) (addr : Int) (args : List Int32) : Exec Unit := do
  let s ← get
  if setup.maxDepth ≤ s.depth then throw (.callDepthExceeded s.depth)
  set { s with
    frame := newFrame fn addr args s.operands.height
    waiting := s.frame :: s.waiting
    depth := s.depth + 1
    trace := if setup.traced then ⟨fn.name, args, s.depth + 1⟩ :: s.trace else s.trace }

/-- Moves the running frame to an address. Address minus one leaves the frame. -/
def goto (p : Program) (addr : Int) : Exec Signal := do
  if addr = -1 then leave p []
  else
    modify fun s => { s with frame := { s.frame with ip := addr } }
    return .running

/-- One step: the node at the running frame's address, or the end of the frame. -/
def step (setup : Setup) : Exec Signal := do
  let { fn, ip, .. } := (← get).frame
  if ip = fn.stop then leave setup.program []
  else if ip < fn.start ∨ (fn.stop : Int) < ip then throw (.badInstruction ip)
  else
    match setup.program.code[ip.toNat]? with
    | none => throw (.badInstruction ip)
    | some n =>
      match ← exec setup.program n with
      | .next =>
        modify fun s => { s with frame := { s.frame with ip := s.frame.ip + 1 } }
        return .running
      | .goto addr => goto setup.program addr
      | .leave results => leave setup.program results
      | .enter fn addr args =>
        enter setup fn addr args
        return .running

/-- Leaves every active frame after a failure, the running one first. What a frame left on
the stack is dropped. -/
def State.unwind (s : State) : State :=
  { s with
    operands := (s.frame :: s.waiting).foldl (fun ops f => ops.truncate f.base) s.operands
    depth := s.depth - (s.frame :: s.waiting).length }

/-- Runs to the end within a number of steps: the results or the fault, and the state then.
There is no answer when the steps do not suffice. -/
def run (setup : Setup) : Nat → State → Option (Except Fault (List Int32) × State)
  | 0, _ => none
  | fuel + 1, s =>
    match step setup s with
    | .ok .running s => run setup fuel s
    | .ok (.finished results) s => some (.ok results, s)
    | .error cause s => some (.error cause, s)

end TreeMachine.Machine
