import TreeMachine.Machine.Step
import TreeMachine.Proofs.Operands

/-!
# Evaluating structured code

A second meaning of structured code, by recursion on the code itself: no addresses and no
operand stack. An expression gives the operand that its node leaves; a statement acts on the
registers of the call and on the world. A jump abandons what is being evaluated and is
taken up by the statement list around it that has the label: forward it costs nothing,
since the rest of the list is just skipped up to the label; backward it uses up one unit
of a budget. Calls use up the budget as well. So evaluation is total, and one that uses up
its budget says so.

The evaluation of a register that has no value can be treated in three ways (`Care`), and
so can the word that a store overwrites (`Mode.lax`). One choice is what the machine does
with structured code; the others single out evaluations that stay clear of these places.
-/

namespace TreeMachine

section

variable {ε σ α β : Type} {m : EStateM ε σ α} {f : α → EStateM ε σ β} {s s' : σ}

lemma bind_ok (h : m s = .ok x s') : (m >>= f) s = f x s' := by
  show EStateM.bind m f s = f x s'
  rw [EStateM.bind, h]

lemma bind_error (h : m s = .error e s') : (m >>= f) s = .error e s' := by
  show EStateM.bind m f s = .error e s'
  rw [EStateM.bind, h]

lemma bind_eq_ok (h : (m >>= f) s = .ok y s') : ∃ x s1, m s = .ok x s1 ∧ f x s1 = .ok y s' := by
  cases hm : m s with
  | ok x s1 => exact ⟨x, s1, rfl, (bind_ok hm).symm.trans h⟩
  | error e s1 => cases (bind_error hm).symm.trans h

lemma bind_eq_error (h : (m >>= f) s = .error e s') :
    m s = .error e s' ∨ ∃ x s1, m s = .ok x s1 ∧ f x s1 = .error e s' := by
  cases hm : m s with
  | ok x s1 => exact .inr ⟨x, s1, rfl, (bind_ok hm).symm.trans h⟩
  | error e s1 => cases (bind_error hm).symm.trans h; exact .inl rfl

lemma error_of_bind_pure {g : α → β} (h : (m >>= fun x => pure (g x)) s = .error e s') :
    m s = .error e s' := by
  obtain h | ⟨x, s1, -, h⟩ := bind_eq_error h
  · exact h
  · cases h

lemma get_eq (s : σ) : (get : EStateM ε σ σ) s = .ok s s := rfl

lemma modify_eq (g : σ → σ) (s : σ) : (modify g : EStateM ε σ PUnit) s = .ok ⟨⟩ (g s) := rfl

end

end TreeMachine

namespace TreeMachine.Structured

/-- What the code of one call acts on. -/
structure Env where
  /-- The registers of the call. -/
  regs : Registers
  world : World

/-- Why an evaluation does not go on with what follows. -/
inductive Stop where
  | fault (cause : Fault)
  /-- The word that a store would overwrite cannot be read; the source of the store was not
  evaluated. -/
  | target (cause : Fault) (src : Expr)
  /-- A register without a value was used in a way that is not allowed. -/
  | unset
  | goto (label : String)
  /-- The function is left with results. -/
  | leave (results : List Int32)
  /-- The budget is used up. -/
  | exhausted

abbrev Eval := EStateM Stop Env

/-- How registers without a value are treated. -/
inductive Care where
  /-- Taking the value draws a filler. -/
  | fills
  /-- Taking the value is not allowed. -/
  | takes
  /-- Already reading the register is not allowed. -/
  | reads
  deriving DecidableEq

/-- How strictly code is evaluated. -/
structure Mode where
  care : Care
  /-- Whether the word that a store overwrites is read only after the source was
  evaluated. -/
  lax : Bool

/-- What is fixed while the body of a function is evaluated. -/
structure Context where
  mode : Mode
  /-- How often a list of statements may be taken up again by a jump backward. -/
  budget : Nat
  /-- Calls a function or library routine. -/
  call : String → List Int32 → EStateM Stop World (List Int32)

/-! ### Parts of an evaluation -/

namespace Eval

def onWorld {α : Type} (a : Act α) : Eval α := fun ρ =>
  match a ρ.world with
  | .ok x world => .ok x { ρ with world }
  | .error cause world => .error (.fault cause) { ρ with world }

def setRegister (name : String) (v : Int32) : Eval Unit :=
  modify fun ρ => { ρ with regs := ρ.regs.set name v }

/-- The value of a register that was not set when it was read. -/
def fill (name : String) : Eval Int32 := do
  match (← get).regs.get? name with
  | some v => return v
  | none =>
    let v ← onWorld World.drawFiller
    setRegister name v
    return v

def readRegister (care : Care) (name : String) : Eval Operand := fun ρ =>
  match ρ.regs.get? name with
  | some v => .ok (.reg name (some v)) ρ
  | none => if care = .reads then .error .unset ρ else .ok (.reg name none) ρ

def take (care : Care) : Operand → Eval Int32
  | .value v => return v
  | .mem _ v => return v
  | .reg _ (some v) => return v
  | .reg name none => if care = .fills then fill name else throw .unset
  | .symbol _ (some addr) => return Int32.ofNat addr
  | .symbol _ none => return -1

def takeAll (care : Care) : List Operand → Eval (List Int32)
  | [] => return []
  | o :: os => do
    let v ← take care o
    return v :: (← takeAll care os)

def load (addr : Int32) : Eval Int32 :=
  onWorld (World.inspect (·.load addr))

/-- Checks that the word a store will overwrite can be read. -/
def checkTarget (src : Expr) (addr : Int32) : Eval Unit := fun ρ =>
  match ρ.world.heap.load addr with
  | .ok _ => .ok () ρ
  | .error cause => .error (.target cause src) ρ

/-- Calls a target, such as a name; the results go to the result registers. -/
def callBy {τ : Type} (call : τ → List Int32 → EStateM Stop World (List Int32)) (f : τ)
    (args : List Int32) : Eval (List Int32) := fun ρ =>
  match call f args ρ.world with
  | .ok results world =>
    .ok results { regs := ρ.regs.setAll retReg 1 results, world }
  | .error stop world => .error stop { ρ with world }

/-- Turns a jump into the label that is looked for from there on. -/
def seek (a : Eval Unit) : Eval (Option String) := fun ρ =>
  match a ρ with
  | .ok _ ρ => .ok none ρ
  | .error (.goto l) ρ => .ok (some l) ρ
  | .error stop ρ => .error stop ρ

/-- Takes up a list of statements again for every jump to one of its labels that was not
found further on in the list. -/
def loop (labels : List String) (body : Option String → Eval (Option String)) :
    Nat → Option String → Eval Unit
  | n, start => do
    match ← body start with
    | none => return ()
    | some l =>
      if l ∈ labels then
        match n with
        | 0 => throw .exhausted
        | n + 1 => loop labels body n (some l)
      else throw (.goto l)

end Eval

open Eval

def Stmt.label? : Stmt → Option String
  | .label l => some l
  | _ => none

/-- The labels that stand directly in a list of statements. -/
def labelsIn (ss : List Stmt) : List String :=
  ss.filterMap Stmt.label?

def Expr.label : Expr → String
  | .name l => l
  | _ => ""

/-! ### Code -/

mutual

def Stmt.eval (cx : Context) : Stmt → Eval Unit
  | .skip => return ()
  | .label _ => return ()
  | .seq ss => loop (labelsIn ss) (fun start => Stmt.evalSeq cx ss start) cx.budget none
  | .move (.mem addr) src => do
    let a ← take cx.mode.care (← addr.eval cx)
    if !cx.mode.lax then checkTarget src a
    let v ← take cx.mode.care (← src.eval cx)
    if cx.mode.lax then let _ ← load a
    onWorld (World.store a v)
  | .move target src => do
    let v ← take cx.mode.care (← src.eval cx)
    match target with
    | .temp name => setRegister name v
    | _ => throw .unset
  | .exp x => do
    let _ ← x.eval cx
  | .jump target => throw (.goto target.label)
  | .cjump cond yes no => do
    let v ← take cx.mode.care (← cond.eval cx)
    throw (.goto (if v ≠ 0 then yes else no))
  | .ret values => do
    let vs ← takeAll cx.mode.care (← Expr.evalAll cx values)
    throw (.leave vs)
  | .call returns target args => do
    let vs ← takeAll cx.mode.care (← Expr.evalAll cx args)
    let results ← callBy cx.call target.label vs
    if 0 < returns ∧ (results.length : Int) < returns then
      throw (.fault (.returnCount target.text returns results.length))

/-- Evaluates an expression to the operand it leaves. -/
def Expr.eval (cx : Context) : Expr → Eval Operand
  | .const v => return .value v
  | .temp name => readRegister cx.mode.care name
  | .name l => return .symbol l none
  | .mem addr => do
    let a ← take cx.mode.care (← addr.eval cx)
    let v ← load a
    return .mem a v
  | .binop op left right => do
    let l ← left.eval cx
    let r ← right.eval cx
    let l ← take cx.mode.care l
    let r ← take cx.mode.care r
    match Word.binop op l r with
    | .ok v => return .value v
    | .error cause => throw (.fault cause)
  | .unop op x => do
    let v ← take cx.mode.care (← x.eval cx)
    return .value (Word.unop op v)
  | .call target args => do
    let vs ← takeAll cx.mode.care (← Expr.evalAll cx args)
    let results ← callBy cx.call target.label vs
    return .value (results.headD 0)
  | .eseq s x => do
    s.eval cx
    x.eval cx

/-- Evaluates the statements of a list, from the start or from a label on, and gives the
label that is still looked for at the end. -/
def Stmt.evalSeq (cx : Context) : List Stmt → Option String → Eval (Option String)
  | [], start => return start
  | s :: ss, none => do
    let start ← seek (s.eval cx)
    Stmt.evalSeq cx ss start
  | s :: ss, some l => Stmt.evalSeq cx ss (if s.label? = some l then none else some l)

def Expr.evalAll (cx : Context) : List Expr → Eval (List Operand)
  | [] => return []
  | x :: xs => do
    let o ← x.eval cx
    let os ← Expr.evalAll cx xs
    return o :: os

end

/-! ### Calls -/

/-- Runs the body of a function. Running off its end gives no results. -/
def Function.run (f : Function) (cx : Context) (args : List Int32) :
    EStateM Stop World (List Int32) := fun world =>
  match f.body.eval cx { regs := Registers.setAll {} argReg 1 args, world } with
  | .ok _ ρ => .ok [] ρ.world
  | .error (.leave results) ρ => .ok results ρ.world
  | .error stop ρ => .error stop ρ.world

/-- Calls a library routine for the function `caller`. -/
def callRoutine (caller f : String) (args : List Int32) : EStateM Stop World (List Int32) :=
  fun world =>
    match Routine.ofName? f with
    | some r =>
      match r.run caller args world with
      | .ok results world => .ok results world
      | .error cause world => .error (.fault cause) world
    | none => .error (.fault (.unresolvedName f)) world

/-- Calls a function of a unit, or a library routine, for the function `caller` that runs at
some depth. -/
def CodeUnit.call (u : CodeUnit) (mode : Mode) (maxDepth : Nat) :
    Nat → Nat → String → String → List Int32 → EStateM Stop World (List Int32)
  | budget, depth, caller, f, args =>
    match u.lookup f with
    | none => callRoutine caller f args
    | some g =>
      if maxDepth ≤ depth then throw (.fault (.callDepthExceeded depth))
      else
        match budget with
        | 0 => throw .exhausted
        | budget + 1 =>
          g.run { mode, budget, call := u.call mode maxDepth budget (depth + 1) g.name } args

end TreeMachine.Structured
