import TreeMachine.Proofs.Evaluation
import TreeMachine.Structured.OfTree

/-!
# The meaning of a tree

What a program does, by recursion on its tree. Every declaration owns a cell for each call of its
function. Parts are evaluated from left to right, and the logical operators evaluate their
second part only where the first does not decide. Arrays are words of the heap with the length in
front, and are allocated before their elements are evaluated.

As for structured code, a budget bounds how often loops go round and how deep calls go, so that
the evaluation is total. Making the rows of an array counts as a loop.
-/

namespace TreeMachine.Tree

open Structured
open Structured.Compile

/-- What the statements of one call act on. -/
structure Env where
  /-- The value of each declaration, by its number; none if it has not got one yet. -/
  cells : Nat → Option Int32
  world : World

/-- Why an evaluation does not go on with what follows. -/
inductive Stop where
  | fault (cause : Fault)
  /-- A variable without a value was read. -/
  | unset
  /-- The function is left with results. -/
  | leave (results : List Int32)
  /-- The budget is used up. -/
  | exhausted
  /-- The tree has no meaning, as trees that were not resolved. -/
  | stuck

abbrev Eval := EStateM Stop Env

/-- What is fixed while the body of a function is evaluated. -/
structure Context where
  mode : Mode
  /-- How often a loop may go round again. -/
  budget : Nat
  /-- The function that is evaluated. -/
  function : String
  /-- Calls a function or library routine. -/
  call : String → List Int32 → EStateM Stop World (List Int32)

namespace Eval

def onWorld {α : Type} (a : Act α) : Eval α := fun σ =>
  match a σ.world with
  | .ok x world => .ok x { σ with world }
  | .error cause world => .error (.fault cause) { σ with world }

def ofResult {α : Type} : Except Fault α → Eval α
  | .ok x => return x
  | .error cause => throw (.fault cause)

def load (addr : Int32) : Eval Int32 :=
  onWorld (World.inspect (·.load addr))

def setCell (id : Nat) (v : Int32) : Eval Unit :=
  modify fun σ => { σ with cells := Function.update σ.cells id (some v) }

def readCell (id : Nat) : Eval Int32 := fun σ =>
  match σ.cells id with
  | some v => .ok v σ
  | none => .error .unset σ

/-- The declaration that an identifier stands for. -/
def declarationOf (id : Ident) : Eval Nat :=
  match id.symbol with
  | some sym => return sym.id
  | none => throw .stuck

def declared (scope : Scope) (name : String) : Eval Nat :=
  match scope.find? name with
  | some sym => return sym.id
  | none => throw .stuck

def call (cx : Context) (f : String) (args : List Int32) : Eval (List Int32) := fun σ =>
  match cx.call f args σ.world with
  | .ok results world => .ok results { σ with world }
  | .error stop world => .error stop { σ with world }

/-- Stores a value into a word of the heap. The word is read as well: before the value is
evaluated, or after it if the mode is lax. -/
def put (mode : Mode) (addr : Int32) (value : Eval Int32) : Eval Unit := do
  if !mode.lax then let _ ← load addr
  let v ← value
  if mode.lax then let _ ← load addr
  onWorld (World.store addr v)

/-! ### Arrays -/

/-- The address of an element. An index that is not below the length, as unsigned numbers, is
out of bounds. -/
def element (cx : Context) (ref i : Int32) : Eval Int32 := do
  let n ← load (ref - 4)
  if i.toUInt32 < n.toUInt32 then return ref + 4 * i
  else throw (.fault (.indexOutOfBounds cx.function))

/-- Stores values into the words after a base, the `i`-th into the word `i + 1`. -/
def putAll (mode : Mode) (base : Int32) : Nat → List (Eval Int32) → Eval Unit
  | _, [] => return ()
  | i, v :: vs => do
    put mode (base + Int32.ofNat (i + 1) * 4) v
    putAll mode base (i + 1) vs

/-- Allocates an array and evaluates its elements into it. -/
def newArray (mode : Mode) (values : List (Eval Int32)) : Eval Int32 := do
  let base ← onWorld (World.alloc (Int32.ofNat (values.length + 1) * 4))
  put mode base (pure (Int32.ofNat values.length))
  putAll mode base 0 values
  return base + 4

def newSized (mode : Mode) (n : Int32) : Eval Int32 := do
  let base ← onWorld (World.alloc ((n + 1) * 4))
  put mode base (pure n)
  return base + 4

/-- Makes rows and stores them into an array, from the `j`-th on. Each takes one from a budget,
besides what making it takes; gives what is left. -/
def putRows (mode : Mode) (row : Nat → Eval (Int32 × Nat)) (ref : Int32) :
    Nat → Nat → Nat → Eval Nat
  | 0, _, budget => return budget
  | k + 1, j, budget => do
    let made ← row budget
    put mode (ref + Int32.ofNat j * 4) (pure made.1)
    match made.2 with
    | 0 => throw .exhausted
    | budget + 1 => putRows mode row ref k (j + 1) budget

/-- Allocates an array by the sizes of its dimensions. With more than one every element is a row
of its own. -/
def newRows (mode : Mode) : Int32 → List Int32 → Nat → Eval (Int32 × Nat)
  | n, [], budget => do return (← newSized mode n, budget)
  | n, inner :: rest, budget => do
    let ref ← newSized mode n
    return (ref, ← putRows mode (newRows mode inner rest) ref n.toInt.toNat 0 budget)

/-! ### Loops -/

def repeatWhile (test : Eval Int32) (body : Eval Unit) : Nat → Eval Unit
  | 0 => do
    if (← test) ≠ 0 then
      body
      throw .exhausted
  | budget + 1 => do
    if (← test) ≠ 0 then
      body
      repeatWhile test body budget

/-- Stores results into cells, one after the other. -/
def setCells : List Ident → List Int32 → Eval Unit
  | id :: ids, v :: vs => do
    setCell (← declarationOf id) v
    setCells ids vs
  | _, _ => return ()

end Eval

open Eval

/-! ### Expressions -/

mutual

def Expr.eval (cx : Context) : Expr → Eval Int32
  | .int _ v => return v
  | .bool _ b => return if b then 1 else 0
  | .string _ s => newArray cx.mode (s.toList.map fun ch => pure (Utf8.codeOfChar ch))
  | .ident id => do readCell (← declarationOf id)
  | .index _ _ array idx => do
    let ref ← array.eval cx
    let i ← idx.eval cx
    load (← element cx ref i)
  | .binary _ _ .logAnd left right => do
    if (← left.eval cx) ≠ 0 then
      return if (← right.eval cx) ≠ 0 then 1 else 0
    else return 0
  | .binary _ _ .logOr left right => do
    if (← left.eval cx) ≠ 0 then return 1
    else return if (← right.eval cx) ≠ 0 then 1 else 0
  | .binary _ _ op left right => do
    let l ← left.eval cx
    let r ← right.eval cx
    match wordOp op with
    | some wop => ofResult (Word.binop wop l r)
    | none => throw .stuck
  | .unary _ _ .logNot x => do
    return if (← x.eval cx) ≠ 0 then 0 else 1
  | .unary _ _ op x => do
    let v ← x.eval cx
    match wordUnOp op with
    | some wop => return Word.unop wop v
    | none => throw .stuck
  | .call _ _ func args => do
    let vs ← Expr.evalAll cx args
    return (← Eval.call cx func vs).headD 0

def Expr.evalAll (cx : Context) : List Expr → Eval (List Int32)
  | [] => return []
  | x :: xs => do
    let v ← x.eval cx
    let vs ← Expr.evalAll cx xs
    return v :: vs

end

/-! ### Statements -/

def newDeclared (cx : Context) (sizes elements : List Expr) : Eval Int32 := do
  match ← Expr.evalAll cx sizes with
  | [] => newArray cx.mode (elements.map (·.eval cx))
  | n :: rest => return (← newRows cx.mode n rest cx.budget).1

mutual

/-- Evaluates a statement whose declarations go to a scope. -/
def Stmt.eval (cx : Context) (scope : Scope) : Stmt → Eval Unit
  | .block _ (some inner) ss => Stmt.evalAll cx inner ss
  | .block _ none _ => throw .stuck
  | .var _ _ _ none => return ()
  | .var _ name _ (some x) => do
    let v ← x.eval cx
    setCell (← declared scope name) v
  | .array _ name _ sizes elements => do
    let ref ← newDeclared cx sizes elements
    setCell (← declared scope name) ref
  | .assign _ (.ident id) x => do
    let v ← x.eval cx
    setCell (← declarationOf id) v
  | .assign _ (.index _ _ a idx) x => do
    let ref ← a.eval cx
    let i ← idx.eval cx
    put cx.mode (← element cx ref i) (x.eval cx)
  | .assign _ _ _ => throw .stuck
  | .multi _ targets _ _ func args => do
    let vs ← Expr.evalAll cx args
    let results ← Eval.call cx func vs
    if results.length < targets.length then
      throw (.fault (.returnCount ("NAME " ++ func) targets.length results.length))
    setCells targets results
  | .branch _ cond yes none => do
    if (← cond.eval cx) ≠ 0 then yes.eval cx scope
  | .branch _ cond yes (some no) => do
    if (← cond.eval cx) ≠ 0 then yes.eval cx scope else no.eval cx scope
  | .loop _ cond body => repeatWhile (cond.eval cx) (body.eval cx scope) cx.budget
  | .ret _ values => do throw (.leave (← Expr.evalAll cx values))
  | .expr _ x => do let _ ← x.eval cx
  | .missing => throw .stuck

def Stmt.evalAll (cx : Context) (scope : Scope) : List Stmt → Eval Unit
  | [] => return ()
  | s :: ss => do
    s.eval cx scope
    Stmt.evalAll cx scope ss

end

/-! ### Calls -/

/-- The next argument. One that is missing gets a filler, unless the mode does not allow it. -/
def argument (mode : Mode) : List Int32 → Eval Int32
  | v :: _ => return v
  | [] => if mode.care = .fills then onWorld World.drawFiller else throw .unset

/-- Gives the parameters of a function their arguments. -/
def bindParams (mode : Mode) (scope : Scope) : List Param → List Int32 → Eval Unit
  | [], _ => return ()
  | p :: ps, args => do
    let v ← argument mode args
    setCell (← declared scope p.name) v
    bindParams mode scope ps args.tail

/-- What the end of its body makes of a function. Running off the end gives no results. -/
def answer : EStateM.Result Stop Env Unit → EStateM.Result Stop World (List Int32)
  | .ok _ σ => .ok [] σ.world
  | .error (.leave results) σ => .ok results σ.world
  | .error stop σ => .error stop σ.world

/-- Runs a function with its parameters bound to arguments. -/
def Function.run (f : Function) (cx : Context) (args : List Int32) :
    EStateM Stop World (List Int32) := fun world =>
  match f.scope, f.body with
  | some params, some { scope := some scope, stmts, .. } =>
    let body := do
      bindParams cx.mode params f.params args
      Stmt.evalAll cx scope stmts
    answer (body { cells := fun _ => none, world })
  | _, _ => .error .stuck world

/-- Calls a library routine for the function `caller`. -/
def callLibrary (caller f : String) (args : List Int32) : EStateM Stop World (List Int32) :=
  fun world =>
    match Routine.ofName? f with
    | some r =>
      match r.run caller args world with
      | .ok results world => .ok results world
      | .error cause world => .error (.fault cause) world
    | none => .error (.fault (.unresolvedName f)) world

/-- Calls a function of a program, or a library routine, for the function `caller` that runs at
some depth. -/
def Program.call (p : Program) (mode : Mode) (maxDepth : Nat) :
    Nat → Nat → String → String → List Int32 → EStateM Stop World (List Int32)
  | budget, depth, caller, f, args =>
    match p.function? f with
    | none => callLibrary caller f args
    | some g =>
      if maxDepth ≤ depth then throw (.fault (.callDepthExceeded depth))
      else
        match budget with
        | 0 => throw .exhausted
        | budget + 1 =>
          g.run { mode, budget, function := g.name,
                  call := p.call mode maxDepth budget (depth + 1) g.name } args

end TreeMachine.Tree
