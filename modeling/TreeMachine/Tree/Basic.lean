import TreeMachine.Tree.Operator
import TreeMachine.Tree.Symbol

/-!
# Program trees

The tree of a program. A tree that has been read has names only; resolving it attaches to
every block its scope, to every identifier the declaration it stands for, and to every
expression its type.
-/

namespace TreeMachine.Tree

/-- The use of a variable or parameter. -/
structure Ident where
  span : Span := {}
  name : String
  type : Option Ty := none
  /-- The declaration the name stands for, once it is resolved. -/
  symbol : Option Symbol := none
  deriving Repr, DecidableEq

/-- Expressions. -/
inductive Expr where
  | int (span : Span) (value : Int32)
  | bool (span : Span) (value : Bool)
  /-- A text; its value is an array of character codes. -/
  | string (span : Span) (value : String)
  | ident (id : Ident)
  | index (span : Span) (type : Option Ty) (array idx : Expr)
  | binary (span : Span) (type : Option Ty) (op : BinaryOp) (left right : Expr)
  | unary (span : Span) (type : Option Ty) (op : UnaryOp) (x : Expr)
  | call (span : Span) (type : Option Ty) (func : String) (args : List Expr)
  deriving Repr, Inhabited

namespace Expr

/-- The type of an expression as far as it is known. A call without a known type has no
result. -/
def type : Expr → Option Ty
  | int _ _ => some .int
  | bool _ _ => some .bool
  | string _ _ => some (.array .int)
  | ident id => id.type
  | index _ t _ _ => t
  | binary _ t _ _ _ => t
  | unary _ t _ _ => t
  | call _ t _ _ => some (t.getD .void)

/-- The name of an expression's form in messages. -/
def form : Expr → String
  | int _ _ => "*ast.IntLit"
  | bool _ _ => "*ast.BoolLit"
  | string _ _ => "*ast.StringLit"
  | ident _ => "*ast.Ident"
  | index .. => "*ast.Index"
  | binary .. => "*ast.Binary"
  | unary .. => "*ast.Unary"
  | call .. => "*ast.CallExpr"

end Expr

/-- Statements. -/
inductive Stmt where
  /-- Statements with a scope of their own. -/
  | block (span : Span) (scope : Option Scope) (stmts : List Stmt)
  /-- Declares a variable. -/
  | var (span : Span) (name : String) (type : Option Ty) (value : Option Expr)
  /-- Declares an array, by the sizes of its dimensions or by its elements. -/
  | array (span : Span) (name : String) (type : Option Ty) (sizes elements : List Expr)
  /-- Stores a value into a variable or an array element. -/
  | assign (span : Span) (target value : Expr)
  /-- Calls a function and stores its results into variables. -/
  | multi (span : Span) (targets : List Ident) (callSpan : Span) (callType : Option Ty)
      (func : String) (args : List Expr)
  /-- Runs one of two statements; the second may be missing. -/
  | branch (span : Span) (cond : Expr) (yes : Stmt) (no : Option Stmt)
  /-- Repeats a statement while the condition holds. -/
  | loop (span : Span) (cond : Expr) (body : Stmt)
  /-- Leaves the function with values. -/
  | ret (span : Span) (values : List Expr)
  /-- Evaluates for effect. -/
  | expr (span : Span) (x : Expr)
  /-- A statement that is not there. -/
  | missing
  deriving Repr, Inhabited

/-- A parameter of a function. -/
structure Param where
  span : Span := {}
  name : String
  type : Option Ty
  deriving Repr, DecidableEq

/-- The body of a function. -/
structure Body where
  span : Span := {}
  scope : Option Scope := none
  stmts : List Stmt := []
  deriving Repr

/-- A function. -/
structure Function where
  span : Span := {}
  name : String
  params : List Param := []
  returns : List Ty := []
  /-- The scope of the parameters, once it is known. -/
  scope : Option Scope := none
  body : Option Body
  deriving Repr

/-- A program. -/
structure Program where
  span : Span := {}
  name : String
  functions : List Function := []
  /-- The scope of the functions, once it is known. -/
  scope : Option Scope := none
  deriving Repr

def Program.function? (p : Program) (name : String) : Option Function :=
  p.functions.find? (·.name == name)

end TreeMachine.Tree
