import Std.Data.TreeSet
import TreeMachine.Error
import TreeMachine.Flat.Basic
import TreeMachine.Structured.Printer
import TreeMachine.Structured.Walk

/-!
# From structured to flat code

An expression becomes the statements that must run first and an expression without
effects for its value. Siblings keep their order from left to right. When the statements
of a later sibling could change the value of an earlier one, that value is saved in a
fresh register before they run.

Fresh registers carry a number from one counter for the whole unit and avoid every
register the unit names. So a register that the unit does not name is a fresh one, and
each of those is assigned once.
-/

namespace TreeMachine.Flat

abbrev Taken := Std.TreeSet String

abbrev Lowering := StateT Nat (Except Fault)

namespace Lowering

/-- The first register `hint.n` past a number that is not taken; `fuel` bounds how many
are tried. -/
def findFree (taken : Taken) (hint : String) : Nat → Nat → String × Nat
  | 0, n => (hint ++ "." ++ toString (n + 1), n + 1)
  | fuel + 1, n =>
    let name := hint ++ "." ++ toString (n + 1)
    if taken.contains name then findFree taken hint fuel (n + 1) else (name, n + 1)

/-- A fresh register. At most as many numbers are skipped as there are taken registers. -/
def fresh (taken : Taken) (hint : String) : Lowering String :=
  modifyGet (findFree taken hint taken.size)

/-- Whether no later statement can change an expression's value: constants, names and
fresh registers. -/
def isFixed (taken : Taken) : Flat.Expr → Bool
  | .const _ => true
  | .name _ => true
  | .temp reg => !taken.contains reg
  | _ => false

/-- Whether evaluating an expression can be left out when its value is not used. -/
def isInert : Flat.Expr → Bool
  | .const _ => true
  | .name _ => true
  | .temp _ => true
  | _ => false

/-- Saves the values that are not fixed in fresh registers, from left to right: the moves,
and the expressions to use instead. -/
def save (taken : Taken) : List Flat.Expr → Lowering (List Flat.Stmt × List Flat.Expr)
  | [] => return ([], [])
  | x :: xs => do
    if isFixed taken x then
      let (moves, xs) ← save taken xs
      return (moves, x :: xs)
    else
      let reg ← fresh taken "lt"
      let (moves, xs) ← save taken xs
      return (.moveTemp reg x :: moves, .temp reg :: xs)

/-- Adds a sibling to the siblings before it. If it brings statements, the values of the
earlier ones are saved in front of them. -/
def join (taken : Taken) (done : List Flat.Stmt × List Flat.Expr)
    (next : List Flat.Stmt × Flat.Expr) : Lowering (List Flat.Stmt × List Flat.Expr) := do
  if next.1.isEmpty then return (done.1, done.2 ++ [next.2])
  else
    let (moves, xs) ← save taken done.2
    return (done.1 ++ moves ++ next.1, xs ++ [next.2])

/-- Lowers a first sibling and then the ones after it. -/
def siblings (taken : Taken) (head : Lowering (List Flat.Stmt × Flat.Expr))
    (tail : List Flat.Stmt × List Flat.Expr → Lowering (List Flat.Stmt × List Flat.Expr)) :
    Lowering (List Flat.Stmt × List Flat.Expr) := do
  tail (← join taken ([], []) (← head))

/-- The call statement for the lowered target and arguments. -/
def callWith (returns : Int) (dest : String) :
    List Flat.Stmt × List Flat.Expr → List Flat.Stmt
  | (pre, target :: args) => pre ++ [.call returns dest target args]
  | (pre, []) => pre

end Lowering

open Lowering

mutual

def lowerStmt (taken : Taken) : Structured.Stmt → Lowering (List Stmt)
  | .skip => return []
  | .seq ss => lowerStmts taken ss
  | .label name => return [.label name]
  | .move target src =>
    let value := lowerExpr taken src
    lowerMove taken target value fun dest =>
      match src with
      | .call callee args => do
        let all ← siblings taken (lowerExpr taken callee) (lowerExprs taken · args)
        return callWith 0 dest all
      | _ => do
        let (pre, x) ← value
        return pre ++ [.moveTemp dest x]
  | .exp (.call callee args) => do
    let all ← siblings taken (lowerExpr taken callee) (lowerExprs taken · args)
    return callWith 0 "" all
  | .exp x => do
    let (pre, x) ← lowerExpr taken x
    return if isInert x then pre else pre ++ [.exp x]
  | .jump target => do
    let (pre, target) ← lowerExpr taken target
    return pre ++ [.jump target]
  | .cjump cond yes no => do
    let (pre, cond) ← lowerExpr taken cond
    return pre ++ [.cjump cond yes no]
  | .ret values => do
    let (pre, values) ← lowerExprs taken ([], []) values
    return pre ++ [.ret values]
  | .call returns callee args => do
    let all ← siblings taken (lowerExpr taken callee) (lowerExprs taken · args)
    return callWith returns "" all

/-- Lowers a move. `value` lowers the source to an expression, `into` lowers it into a
register. A memory target's address comes before the source. -/
def lowerMove (taken : Taken) (target : Structured.Expr)
    (value : Lowering (List Stmt × Expr)) (into : String → Lowering (List Stmt)) :
    Lowering (List Stmt) :=
  match target with
  | .temp reg => into reg
  | .mem addr => do
    match ← siblings taken (lowerExpr taken addr) (fun first => do join taken first (← value)) with
    | (pre, [addr, src]) => return pre ++ [.moveMem addr src]
    | (pre, _) => return pre
  | .eseq s x => do
    let pre ← lowerStmt taken s
    let rest ← lowerMove taken x value into
    return pre ++ rest
  | other => throw (.unsupportedNode ("move target " ++ other.text))

/-- Lowers an expression: the statements that run first, and the value. -/
def lowerExpr (taken : Taken) : Structured.Expr → Lowering (List Stmt × Expr)
  | .const v => return ([], .const v)
  | .temp reg => return ([], .temp reg)
  | .name label => return ([], .name label)
  | .mem addr => do
    let (pre, addr) ← lowerExpr taken addr
    return (pre, .mem addr)
  | .binop op left right => do
    match ← siblings taken (lowerExpr taken left)
        (fun first => do join taken first (← lowerExpr taken right)) with
    | (pre, [left, right]) => return (pre, .binop op left right)
    | (pre, _) => return (pre, .const 0)
  | .unop op x => do
    let (pre, x) ← lowerExpr taken x
    return (pre, .unop op x)
  | .call callee args => do
    let dest ← fresh taken "lc"
    let all ← siblings taken (lowerExpr taken callee) (lowerExprs taken · args)
    return (callWith 0 dest all, .temp dest)
  | .eseq s x => do
    let pre ← lowerStmt taken s
    let (rest, x) ← lowerExpr taken x
    return (pre ++ rest, x)

def lowerStmts (taken : Taken) : List Structured.Stmt → Lowering (List Stmt)
  | [] => return []
  | s :: ss => do
    let first ← lowerStmt taken s
    let rest ← lowerStmts taken ss
    return first ++ rest

def lowerExprs (taken : Taken) (done : List Stmt × List Expr) :
    List Structured.Expr → Lowering (List Stmt × List Expr)
  | [] => return done
  | x :: xs => do
    let done ← join taken done (← lowerExpr taken x)
    lowerExprs taken done xs

end

def lowerFunction (taken : Taken) (f : Structured.Function) : Lowering Function := do
  let body ← lowerStmt taken f.body
  return { name := f.name, params := f.params, body }

/-- Lowers functions in order, passing the number of the last fresh register on. -/
def lowerFunctions (taken : Taken) :
    List Structured.Function → Nat → Except Error (List Function)
  | [], _ => .ok []
  | f :: fs, n =>
    match (lowerFunction taken f).run n with
    | .error cause => .error (.within s!"function {f.name}" (.fault cause {}))
    | .ok (g, n) => do
      let gs ← lowerFunctions taken fs n
      return g :: gs

def CodeUnit.ofStructured (u : Structured.CodeUnit) : Except Error CodeUnit := do
  let functions ← lowerFunctions (Std.TreeSet.ofList u.temps) u.functions 0
  return { name := u.name, functions }

def CodeUnit.ofStructured? : Option Structured.CodeUnit → Except Error CodeUnit
  | some u => ofStructured u
  | none => .error (.reason (.missingUnit "HIR"))

end TreeMachine.Flat
