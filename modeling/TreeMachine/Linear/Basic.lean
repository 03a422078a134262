import Std.Data.TreeMap
import TreeMachine.Error
import TreeMachine.Flat.Lift
import TreeMachine.Machine.Routine

/-!
# Linear code

The form the machine runs: every node of every function body at an address of its own, a
node after its parts. Addresses count from zero without gaps. Labels take no address; they
name the address of the node that follows. Function names share one space with labels.
-/

namespace TreeMachine.Linear

open Structured (Node Stmt Expr)

/-- What linear code is laid out from, in order: nodes, and labels between them. -/
inductive Item where
  | mark (label : String)
  | node (n : Node)

mutual

/-- The nodes of a statement in the order they run, with the labels between them. -/
def itemsOf : Stmt → List Item
  | .skip => []
  | .label name => [.mark name]
  | .seq ss => itemsOfAll ss ++ [.node (.stmt (.seq ss))]
  | .move target src =>
    itemsOfExpr target ++ itemsOfExpr src ++ [.node (.stmt (.move target src))]
  | .exp x => itemsOfExpr x ++ [.node (.stmt (.exp x))]
  | .jump target => itemsOfExpr target ++ [.node (.stmt (.jump target))]
  | .cjump cond yes no => itemsOfExpr cond ++ [.node (.stmt (.cjump cond yes no))]
  | .ret values => itemsOfExprs values ++ [.node (.stmt (.ret values))]
  | .call returns target args =>
    itemsOfExpr target ++ itemsOfExprs args ++ [.node (.stmt (.call returns target args))]

/-- The nodes of an expression in the order they run. -/
def itemsOfExpr : Expr → List Item
  | .const v => [.node (.expr (.const v))]
  | .temp reg => [.node (.expr (.temp reg))]
  | .name label => [.node (.expr (.name label))]
  | .mem addr => itemsOfExpr addr ++ [.node (.expr (.mem addr))]
  | .binop op left right =>
    itemsOfExpr left ++ itemsOfExpr right ++ [.node (.expr (.binop op left right))]
  | .unop op x => itemsOfExpr x ++ [.node (.expr (.unop op x))]
  | .call target args =>
    itemsOfExpr target ++ itemsOfExprs args ++ [.node (.expr (.call target args))]
  | .eseq s x => itemsOf s ++ itemsOfExpr x ++ [.node (.expr (.eseq s x))]

def itemsOfAll : List Stmt → List Item
  | [] => []
  | s :: ss => itemsOf s ++ itemsOfAll ss

def itemsOfExprs : List Expr → List Item
  | [] => []
  | x :: xs => itemsOfExpr x ++ itemsOfExprs xs

end

/-- The addresses of a function: from `start` up to and not including `stop`. Running
into `stop` returns from the function without results. -/
structure Range where
  name : String
  start : Nat
  stop : Nat
  deriving Repr, DecidableEq

/-- A unit laid out in addresses. -/
structure Program where
  unit : String
  code : Array Node := #[]
  labels : Std.TreeMap String Nat := ∅
  funcs : List Range := []

instance : Inhabited Program := ⟨{ unit := "" }⟩

/-- The least number from `lo` on at which a test holds, found by halving; `hi` if it holds
at none below `hi`. The test has to go on holding once it holds. -/
def bisect (test : Nat → Bool) (lo hi : Nat) : Nat :=
  if lo < hi then
    if test ((lo + hi) / 2) then bisect test lo ((lo + hi) / 2)
    else bisect test ((lo + hi) / 2 + 1) hi
  else lo
termination_by hi - lo

namespace Program

def define (p : Program) (name : String) : Except Fault Program :=
  if p.labels.contains name then .error (.duplicateLabel name)
  else .ok { p with labels := p.labels.insert name p.code.size }

def place (p : Program) : Item → Except Fault Program
  | .mark name => p.define name
  | .node n => .ok { p with code := p.code.push n }

/-- Lays out a function: its name, then its body. -/
def addFunction (p : Program) (f : Structured.Function) : Except Fault Program := do
  let q ← p.define f.name
  let r ← (itemsOf f.body).foldlM place q
  return { r with funcs := r.funcs ++ [⟨f.name, p.code.size, r.code.size⟩] }

/-- Lays out the functions of a unit one after the other. -/
def ofUnit (u : Structured.CodeUnit) : Except Error Program :=
  u.functions.foldlM
    (fun p f => Error.wrap s!"function {f.name}" <|
      (p.addFunction f).mapError fun cause => .fault cause {})
    { unit := u.name }

def ofFlat (u : Flat.CodeUnit) : Except Error Program :=
  ofUnit u.lift

def ofUnit? : Option Structured.CodeUnit → Except Error Program
  | some u => ofUnit u
  | none => .error (.reason (.missingUnit "HIR"))

def ofFlat? : Option Flat.CodeUnit → Except Error Program
  | some u => ofFlat u
  | none => .error (.reason (.missingUnit "LIR"))

/-- Whether the `i`-th function stops after an address. -/
def stopsAfter (p : Program) (addr : Int) (i : Nat) : Bool :=
  (p.funcs[i]?).any fun r => addr < r.stop

/-- The function whose addresses contain `addr`. The functions stand in the order of their
addresses, so the first one that stops after `addr` is the only candidate. -/
def functionAt (p : Program) (addr : Int) : Option Range :=
  match p.funcs[bisect (p.stopsAfter addr) 0 p.funcs.length]? with
  | some r => if (r.start : Int) ≤ addr then some r else none
  | none => none

def entry (p : Program) (name : String) : Option Range :=
  p.funcs.find? (·.name == name)

/-- Whether a name used as a target has an address or is a library routine. -/
def resolves (p : Program) (name : String) : Bool :=
  p.labels.contains name || (Routine.ofName? name).isSome

/-- The first name a node uses that nothing defines. Branches go to labels only. -/
def danglingName (p : Program) : Node → Option String
  | .expr (.name label) => if p.resolves label then none else some label
  | .stmt (.cjump _ yes no) => [yes, no].find? fun l => !p.labels.contains l
  | _ => none

/-- Checks that every name the code uses is defined. -/
def link (p : Program) : Except Error Unit :=
  match p.code.toList.findSome? p.danglingName with
  | some name => .error (.fault (.unresolvedName name) {})
  | none => .ok ()

end Program

end TreeMachine.Linear
