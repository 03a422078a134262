import TreeMachine.Structured.Basic

/-!
# Flat code

The second form of a program: a function's body is one list of statements, expressions
have no effects, and every call is a statement of its own. So every effect is one entry of
the list, in the order in which it happens. Operators are those of structured code.
-/

namespace TreeMachine.Flat

/-- Expressions without effects. -/
inductive Expr where
  | const (value : Int32)
  | temp (name : String)
  | mem (addr : Expr)
  | name (label : String)
  | binop (op : Structured.BinOp) (left right : Expr)
  | unop (op : Structured.UnOp) (x : Expr)
  deriving Repr, DecidableEq, Inhabited

/-- Statements. -/
inductive Stmt where
  /-- Stores the source into a register. -/
  | moveTemp (name : String) (src : Expr)
  /-- Stores the source into the word at an address. -/
  | moveMem (addr src : Expr)
  /-- Evaluates and discards; there only where evaluating can fail. -/
  | exp (x : Expr)
  /-- Goes on at the address that the target evaluates to. -/
  | jump (target : Expr)
  /-- Goes on at the first label if the condition is not zero, at the second otherwise. -/
  | cjump (cond : Expr) (yes no : String)
  /-- Marks the place of the next statement. -/
  | label (name : String)
  /-- Leaves the function with values. -/
  | ret (values : List Expr)
  /-- Calls the target. With a destination, which is a register with a name, the first
  result or zero is written there; `returns` results are expected, and zero expects
  nothing. -/
  | call (returns : Int) (dest : String) (target : Expr) (args : List Expr)
  deriving Repr, DecidableEq, Inhabited

/-- A function: its name, the registers of its parameters and its body. -/
structure Function where
  name : String
  params : List String := []
  body : List Stmt
  deriving Repr, DecidableEq

/-- A named list of functions. -/
structure CodeUnit where
  name : String
  functions : List Function
  deriving Repr, DecidableEq

def CodeUnit.lookup (u : CodeUnit) (name : String) : Option Function :=
  u.functions.find? (·.name == name)

end TreeMachine.Flat
