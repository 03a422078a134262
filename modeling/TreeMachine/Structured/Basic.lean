/-!
# Structured code

The form in which a program's functions are first compiled: statements and expressions
over 32-bit words, abstract registers and one flat memory. Expressions are trees; a
statement may stand inside an expression through `Expr.eseq`, and calls may stand
anywhere an expression may.

Functions of a unit keep their order. Arguments arrive in the registers `ARG1`, `ARG2`, …
and results in `RET1`, `RET2`, ….
-/

namespace TreeMachine.Structured

/-- The size in bytes of a value and of a memory cell. -/
def wordSize : Nat := 4

/-- Binary operators on words. An operator outside the defined ones keeps its number. -/
inductive BinOp where
  | add
  | sub
  | mul
  | div
  | mod
  | and
  | or
  | xor
  | shl
  | shr
  | ushr
  | eq
  | ne
  | lt
  | le
  | gt
  | ge
  | ult
  | undefined (tag : Int)
  deriving Repr, DecidableEq

namespace BinOp

/-- The defined operators in the order of their numbers. -/
def defined : List BinOp :=
  [add, sub, mul, div, mod, and, or, xor, shl, shr, ushr, eq, ne, lt, le, gt, ge, ult]

def ofTag (tag : Int) : BinOp :=
  if 0 ≤ tag then (defined[tag.toNat]?).getD (undefined tag) else undefined tag

def text : BinOp → String
  | add => "add"
  | sub => "sub"
  | mul => "mul"
  | div => "div"
  | mod => "mod"
  | and => "and"
  | or => "or"
  | xor => "xor"
  | shl => "shl"
  | shr => "shr"
  | ushr => "ushr"
  | eq => "eq"
  | ne => "ne"
  | lt => "lt"
  | le => "le"
  | gt => "gt"
  | ge => "ge"
  | ult => "ult"
  | undefined _ => "binop?"

end BinOp

/-- Unary operators on words. -/
inductive UnOp where
  | neg
  | not
  | undefined (tag : Int)
  deriving Repr, DecidableEq

namespace UnOp

def ofTag (tag : Int) : UnOp :=
  if tag == 0 then neg else if tag == 1 then not else undefined tag

def text : UnOp → String
  | neg => "neg"
  | not => "not"
  | undefined _ => "unop?"

end UnOp

mutual

/-- Statements. -/
inductive Stmt where
  /-- Runs its statements in order. -/
  | seq (stmts : List Stmt)
  /-- Stores the source into the target, which must be a register or a memory cell. -/
  | move (target src : Expr)
  /-- Evaluates for effect and discards the value. -/
  | exp (x : Expr)
  /-- Goes on at the address that the target evaluates to. -/
  | jump (target : Expr)
  /-- Goes on at the first label if the condition is not zero, at the second otherwise. -/
  | cjump (cond : Expr) (yes no : String)
  /-- Marks the place of the next node. It takes no address itself. -/
  | label (name : String)
  /-- Leaves the function with values. -/
  | ret (values : List Expr)
  /-- Calls the target and expects a number of results in `RET1`, `RET2`, …. -/
  | call (returns : Int) (target : Expr) (args : List Expr)
  /-- No statement at all. -/
  | skip

/-- Expressions; each yields one word. -/
inductive Expr where
  /-- A constant. -/
  | const (value : Int32)
  /-- A register. -/
  | temp (name : String)
  /-- The word at an address. -/
  | mem (addr : Expr)
  /-- The address of a label or function. -/
  | name (label : String)
  /-- Applies an operator to two operands, left first. -/
  | binop (op : BinOp) (left right : Expr)
  /-- Applies an operator to one operand. -/
  | unop (op : UnOp) (x : Expr)
  /-- Calls the target and yields the first result. -/
  | call (target : Expr) (args : List Expr)
  /-- Runs a statement for effect, then yields the expression. -/
  | eseq (stmt : Stmt) (x : Expr)

end

instance : Inhabited Stmt := ⟨.skip⟩

instance : Inhabited Expr := ⟨.const 0⟩

/-- A function: its name, the registers of its parameters and its body. -/
structure Function where
  name : String
  params : List String := []
  body : Stmt

/-- A named list of functions. -/
structure CodeUnit where
  name : String
  functions : List Function

def CodeUnit.lookup (u : CodeUnit) (name : String) : Option Function :=
  u.functions.find? (·.name == name)

/-- The register of the `i`-th argument, counting from one. -/
def argReg (i : Nat) : String := "ARG" ++ toString i

/-- The register of the `i`-th result, counting from one. -/
def retReg (i : Nat) : String := "RET" ++ toString i

/-- Whether a name has the form of an argument or result register. -/
def isConventionReg (name : String) : Bool :=
  match name.toList with
  | 'A' :: 'R' :: 'G' :: ds => !ds.isEmpty && ds.all Char.isDigit
  | 'R' :: 'E' :: 'T' :: ds => !ds.isEmpty && ds.all Char.isDigit
  | _ => false

/-- A place in code: a statement or an expression. -/
inductive Node where
  | stmt (s : Stmt)
  | expr (e : Expr)

instance : Inhabited Node := ⟨.stmt .skip⟩

/-- The direct parts of a node in the order they are evaluated. -/
def Node.children : Node → List Node
  | .stmt (.seq ss) => ss.map .stmt
  | .stmt (.move target src) => [.expr target, .expr src]
  | .stmt (.exp x) => [.expr x]
  | .stmt (.jump target) => [.expr target]
  | .stmt (.cjump cond _ _) => [.expr cond]
  | .stmt (.label _) => []
  | .stmt (.ret values) => values.map .expr
  | .stmt (.call _ target args) => .expr target :: args.map .expr
  | .stmt .skip => []
  | .expr (.const _) => []
  | .expr (.temp _) => []
  | .expr (.mem addr) => [.expr addr]
  | .expr (.name _) => []
  | .expr (.binop _ left right) => [.expr left, .expr right]
  | .expr (.unop _ x) => [.expr x]
  | .expr (.call target args) => .expr target :: args.map .expr
  | .expr (.eseq s x) => [.stmt s, .expr x]

end TreeMachine.Structured
