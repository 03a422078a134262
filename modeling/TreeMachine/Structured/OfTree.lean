import TreeMachine.Structured.Basic
import TreeMachine.Text.Utf8
import TreeMachine.Tree.Basic

/-!
# Structured code of a program tree

Every statement and expression of a resolved tree has one fixed form in structured code.
An expression is compiled in two ways, for its value and as a condition that branches;
conditions are never made into a value only to be tested again.

Labels and registers made here carry a number from counters for the whole unit. A declared
variable keeps its name as its register unless the function has used that name before or
the name is one of the argument and result registers; then it gets a number too.

An array is a reference to its first element; the word before it is the length. Every
access compares the index with the length as unsigned numbers and goes to the function's
trap if it is not below.
-/

namespace TreeMachine.Structured

open TreeMachine.Tree (Scope Symbol Ident Ty BinaryOp UnaryOp)

/-- What is known while a unit is compiled. The last three fields are about the function
that is being compiled. -/
structure Compiling where
  labels : Nat := 0
  temps : Nat := 0
  /-- The registers of the declarations met so far, by their number. -/
  bound : List (Nat × String) := []
  /-- The registers that declarations have taken. -/
  used : List String := []
  /-- Whether something goes to the trap. -/
  traps : Bool := false
  deriving Inhabited

abbrev Compile := StateT Compiling (Except Error)

namespace Compile

/-! ### Names -/

def newLabel (hint : String) : Compile String :=
  modifyGet fun c => (hint ++ "." ++ toString (c.labels + 1), { c with labels := c.labels + 1 })

def newTemp (hint : String) : Compile Expr :=
  modifyGet fun c =>
    (.temp (hint ++ "." ++ toString (c.temps + 1)), { c with temps := c.temps + 1 })

def bind (sym : Symbol) : Compile String :=
  modifyGet fun c =>
    let clash := c.used.contains sym.name || isConventionReg sym.name
    let temps := if clash then c.temps + 1 else c.temps
    let reg := if clash then sym.name ++ "." ++ toString temps else sym.name
    (reg, { c with temps, used := reg :: c.used, bound := (sym.id, reg) :: c.bound })

def unresolved {α : Type} (name : String) (span : Span) : Compile α :=
  throw (.fault (.unresolvedScope name) span)

/-- Binds a name that the innermost scope declares. -/
def declare (scopes : List Scope) (name : String) (span : Span) : Compile String :=
  match scopes.head?.bind (·.find? name) with
  | some sym => bind sym
  | none => unresolved name span

/-- The register of an identifier. One that has not been resolved is looked up by name. -/
def registerOf (scopes : List Scope) (id : Ident) : Compile Expr := do
  match id.symbol.or (Scope.lookup scopes id.name) with
  | some sym =>
    match (← get).bound.lookup sym.id with
    | some reg => return .temp reg
    | none => unresolved id.name id.span
  | none => unresolved id.name id.span

/-! ### Parts -/

def jumpTo (label : String) : Stmt :=
  .jump (.name label)

def plus (l r : Expr) : Expr :=
  .binop .add l r

def times (l r : Expr) : Expr :=
  .binop .mul l r

def word : Expr :=
  .const 4

def malloc (bytes : Expr) : Expr :=
  .call (.name "malloc") [bytes]

/-- The operator that computes a binary operator on words. The short-circuit operators
have none. -/
def wordOp : BinaryOp → Option BinOp
  | .add => some .add
  | .sub => some .sub
  | .mul => some .mul
  | .div => some .div
  | .mod => some .mod
  | .bitAnd => some .and
  | .bitOr => some .or
  | .bitXor => some .xor
  | .shl => some .shl
  | .shr => some .shr
  | .eq => some .eq
  | .ne => some .ne
  | .lt => some .lt
  | .le => some .le
  | .gt => some .gt
  | .ge => some .ge
  | .logAnd => none
  | .logOr => none
  | .undefined _ => none

/-- The operator that computes a unary operator on words. -/
def wordUnOp : UnaryOp → Option UnOp
  | .neg => some .neg
  | .bitNot => some .not
  | .logNot => none
  | .undefined _ => none

/-! ### Arrays -/

/-- Moves of elements to the words after a base, the `i`-th element to the word `i + 1`. -/
def elementMoves (base : Expr) : Nat → List Expr → List Stmt
  | _, [] => []
  | i, x :: xs =>
    .move (.mem (plus base (.const (Int32.ofNat (i + 1) * 4)))) x :: elementMoves base (i + 1) xs

/-- Allocates an array with given elements: the statement, and the reference. -/
def arrayLiteral (elements : List Expr) : Compile (Stmt × Expr) := do
  let base ← newTemp "aB"
  let n := elements.length
  return (.seq (.move base (malloc (.const (Int32.ofNat (n + 1) * 4))) ::
      .move (.mem base) (.const (Int32.ofNat n)) :: elementMoves base 0 elements),
    plus base word)

/-- Allocates an array whose sizes are in registers: the statements, and the register of
the reference. With more than one dimension every element is a row of its own. -/
def allocArray (size : Expr) : List Expr → Compile (List Stmt × Expr)
  | [] => do
    let base ← newTemp "aB"
    let ref ← newTemp "aR"
    return (header size base ref, ref)
  | inner :: rest => do
    let base ← newTemp "aB"
    let ref ← newTemp "aR"
    let j ← newTemp "aJ"
    let begin ← newLabel "rows.begin"
    let body ← newLabel "rows.body"
    let stop ← newLabel "rows.end"
    let (alloc, row) ← allocArray inner rest
    return (header size base ref ++
      [.move j (.const 0), .label begin, .cjump (.binop .lt j size) body stop, .label body] ++
      alloc ++
      [.move (.mem (plus ref (times j word))) row, .move j (plus j (.const 1)), jumpTo begin,
        .label stop], ref)
where
  /-- Allocation, length word and reference of one array. -/
  header (size base ref : Expr) : List Stmt :=
    [.move base (malloc (times (plus size (.const 1)) word)), .move (.mem base) size,
      .move ref (plus base word)]

/-- Evaluates array and index into registers and checks the index: the check, and the
element's address. `trap` is the label to go to when the index is out of bounds. -/
def boundsCheck (trap : String) (array idx : Compile Expr) : Compile (Stmt × Expr) := do
  let array ← array
  let idx ← idx
  let a ← newTemp "aA"
  let i ← newTemp "aI"
  let ok ← newLabel "bounds.ok"
  modify fun c => { c with traps := true }
  return (.seq [.move a array, .move i idx,
      .cjump (.binop .ult i (.mem (.binop .sub a word))) ok trap, .label ok],
    plus a (times word i))

/-! ### Expressions -/

/-- An expression compiled for its value, and as a condition that goes to one of two
labels. -/
structure Code where
  value : Compile Expr
  branch : String → String → Compile Stmt

def Code.ofValue (value : Compile Expr) : Code where
  value := value
  branch yes no := do return .cjump (← value) yes no

/-- The value of something that can only branch: zero, or one if it holds. -/
def materialize (branch : String → String → Compile Stmt) : Compile Expr := do
  let t ← newTemp "b"
  let yes ← newLabel "bool.true"
  let done ← newLabel "bool.done"
  let test ← branch yes done
  return .eseq (.seq [.move t (.const 0), test, .label yes, .move t (.const 1), .label done]) t

def Code.ofBranch (branch : String → String → Compile Stmt) : Code where
  value := materialize branch
  branch := branch

/-- Both conditions: the second is tested only if the first holds. -/
def branchAnd (left right : Code) (yes no : String) : Compile Stmt := do
  let mid ← newLabel "and.rhs"
  let l ← left.branch mid no
  let r ← right.branch yes no
  return .seq [l, .label mid, r]

/-- One of two conditions: the second is tested only if the first does not hold. -/
def branchOr (left right : Code) (yes no : String) : Compile Stmt := do
  let mid ← newLabel "or.rhs"
  let l ← left.branch yes mid
  let r ← right.branch yes no
  return .seq [l, .label mid, r]

/-- The fault of an operator that no word operator computes. -/
def noEncoding (op : String) (span : Span) : Error :=
  .fault (.unsupportedOperator op) span

mutual

/-- Compiles an expression. `trap` is the label for an index out of bounds. -/
def expr (scopes : List Scope) (trap : String) : Tree.Expr → Code
  | .int _ v => .ofValue (return .const v)
  | .bool _ v =>
    { value := return .const (if v then 1 else 0)
      branch := fun yes no => return jumpTo (if v then yes else no) }
  | .string _ s => .ofValue do
    let (alloc, ref) ← arrayLiteral (s.toList.map fun c => .const (Utf8.codeOfChar c))
    return .eseq alloc ref
  | .ident id => .ofValue (registerOf scopes id)
  | .index _ _ array idx => .ofValue do
    let (check, addr) ← boundsCheck trap (expr scopes trap array).value
      (expr scopes trap idx).value
    return .eseq check (.mem addr)
  | .binary span _ op left right =>
    let left := expr scopes trap left
    let right := expr scopes trap right
    match op with
    | .logAnd => .ofBranch (branchAnd left right)
    | .logOr => .ofBranch (branchOr left right)
    | op => .ofValue do
      match wordOp op with
      | none => throw (noEncoding op.text span)
      | some wop =>
        let l ← left.value
        let r ← right.value
        return .binop wop l r
  | .unary span _ op x =>
    let x := expr scopes trap x
    match op with
    | .logNot => .ofBranch fun yes no => x.branch no yes
    | op => .ofValue do
      match wordUnOp op with
      | none => throw (noEncoding op.text span)
      | some wop => return .unop wop (← x.value)
  | .call _ _ func args => .ofValue do
    return .call (.name func) (← values scopes trap args)

/-- Compiles expressions for their values, in order. -/
def values (scopes : List Scope) (trap : String) : List Tree.Expr → Compile (List Expr)
  | [] => return []
  | x :: xs => do
    let v ← (expr scopes trap x).value
    let vs ← values scopes trap xs
    return v :: vs

end

/-! ### Statements -/

/-- Evaluates sizes into registers: the moves, and the registers. -/
def sizeMoves (scopes : List Scope) (trap : String) :
    List Tree.Expr → Compile (List Stmt × List Expr)
  | [] => return ([], [])
  | x :: xs => do
    let v ← (expr scopes trap x).value
    let t ← newTemp "aS"
    let (moves, ts) ← sizeMoves scopes trap xs
    return (.move t v :: moves, t :: ts)

/-- Allocates the array of a declaration: the statements, and the reference. -/
def declaredArray (scopes : List Scope) (trap : String) (sizes elements : List Tree.Expr) :
    Compile (List Stmt × Expr) := do
  match ← sizeMoves scopes trap sizes with
  | (moves, size :: rest) =>
    let (alloc, ref) ← allocArray size rest
    return (moves ++ alloc, ref)
  | (_, []) =>
    let xs ← values scopes trap elements
    let (alloc, ref) ← arrayLiteral xs
    return ([alloc], ref)

/-- Moves from the result registers, from the `i`-th on, to variables. -/
def resultMoves (scopes : List Scope) : Nat → List Ident → Compile (List Stmt)
  | _, [] => return []
  | i, id :: ids => do
    let t ← registerOf scopes id
    let rest ← resultMoves scopes (i + 1) ids
    return .move t (.temp (retReg i)) :: rest

def assignment (scopes : List Scope) (trap : String) (span : Span) (target : Tree.Expr)
    (value : Compile Expr) : Compile Stmt :=
  match target with
  | .ident id => do
    let t ← registerOf scopes id
    return .move t (← value)
  | .index _ _ array idx => do
    let (check, addr) ← boundsCheck trap (expr scopes trap array).value
      (expr scopes trap idx).value
    return .move (.mem (.eseq check addr)) (← value)
  | other => throw (.fault (.unsupportedNode ("assignment to " ++ other.form)) span)

mutual

/-- Compiles a statement. A declaration without a value needs no code. -/
def stmt (scopes : List Scope) (trap : String) : Tree.Stmt → Compile (Option Stmt)
  | .block span none _ => unresolved "block" span
  | .block _ (some scope) ss => do
    return some (.seq (← stmts (scope :: scopes) trap ss))
  | .var span name _ value => do
    match value with
    | none =>
      let _ ← declare scopes name span
      return none
    | some x =>
      let src ← (expr scopes trap x).value
      let reg ← declare scopes name span
      return some (.move (.temp reg) src)
  | .array span name _ sizes elements => do
    let (alloc, ref) ← declaredArray scopes trap sizes elements
    let reg ← declare scopes name span
    return some (.seq (alloc ++ [.move (.temp reg) ref]))
  | .assign span target value => do
    return some (← assignment scopes trap span target (expr scopes trap value).value)
  | .multi _ targets _ _ func args => do
    let args ← values scopes trap args
    let moves ← resultMoves scopes 1 targets
    return some (.seq (.call targets.length (.name func) args :: moves))
  | .branch _ cond yes none => do
    let yesLabel ← newLabel "if.then"
    let endLabel ← newLabel "if.end"
    let test ← (expr scopes trap cond).branch yesLabel endLabel
    let yes ← stmt scopes trap yes
    return some (.seq ([test, .label yesLabel] ++ yes.toList ++ [.label endLabel]))
  | .branch _ cond yes (some no) => do
    let yesLabel ← newLabel "if.then"
    let endLabel ← newLabel "if.end"
    let noLabel ← newLabel "if.else"
    let test ← (expr scopes trap cond).branch yesLabel noLabel
    let yes ← stmt scopes trap yes
    let no ← stmt scopes trap no
    return some (.seq ([test, .label yesLabel] ++ yes.toList ++
      [jumpTo endLabel, .label noLabel] ++ no.toList ++ [.label endLabel]))
  | .loop _ cond body => do
    let beginLabel ← newLabel "while.begin"
    let bodyLabel ← newLabel "while.body"
    let endLabel ← newLabel "while.end"
    let test ← (expr scopes trap cond).branch bodyLabel endLabel
    let body ← stmt scopes trap body
    return some (.seq ([.label beginLabel, test, .label bodyLabel] ++ body.toList ++
      [jumpTo beginLabel, .label endLabel]))
  | .ret _ xs => do
    return some (.ret (← values scopes trap xs))
  | .expr _ x => do
    return some (.exp (← (expr scopes trap x).value))
  | .missing => throw (.crash .missingPart)

def stmts (scopes : List Scope) (trap : String) : List Tree.Stmt → Compile (List Stmt)
  | [] => return []
  | s :: ss => do
    let first ← stmt scopes trap s
    let rest ← stmts scopes trap ss
    return first.toList ++ rest

end

/-! ### Functions -/

/-- Moves the arguments, from the `i`-th on, to the registers of parameters: the registers,
and the moves. -/
def paramMoves (scopes : List Scope) : Nat → List Tree.Param → Compile (List String × List Stmt)
  | _, [] => return ([], [])
  | i, p :: ps => do
    let reg ← declare scopes p.name p.span
    let (regs, moves) ← paramMoves scopes (i + 1) ps
    return (reg :: regs, .move (.temp reg) (.temp (argReg i)) :: moves)

/-- What stands after a function's body: a return where the body may run off its end, and
the trap, which the body must not run into. -/
def ending (trap : String) (hasResults traps : Bool) : List Stmt :=
  (if !hasResults || traps then [.ret []] else []) ++
    if traps then [.label trap, .exp (.call (.name "_outOfBounds") [])] else []

/-- Compiles a function inside the scopes of the program. -/
def function (outer : List Scope) (f : Tree.Function) : Compile Function := do
  match f.scope, f.body with
  | some params, some { scope := some scope, stmts := ss, .. } =>
    let trap := f.name ++ ".bounds"
    modify fun c => { c with bound := [], used := [], traps := false }
    let scopes := params :: outer
    let (regs, moves) ← paramMoves scopes 1 f.params
    let body ← stmts (scope :: scopes) trap ss
    let traps := (← get).traps
    return {
      name := f.name
      params := regs
      body := .seq (moves ++ [.seq body] ++ ending trap (!f.returns.isEmpty) traps) }
  | _, _ => unresolved f.name f.span

/-- Compiles functions in order, with the function's name in front of its errors. -/
def functions (outer : List Scope) :
    List Tree.Function → Compiling → Except Error (List Function)
  | [], _ => .ok []
  | f :: fs, c => do
    let (g, c) ← Error.wrap s!"function {f.name}" ((function outer f).run c)
    let gs ← functions outer fs c
    return g :: gs

end Compile

def CodeUnit.ofTree (p : Tree.Program) : Except Error CodeUnit :=
  match p.scope with
  | none => .error (.fault (.unresolvedScope p.name) p.span)
  | some scope => do
    let functions ← Compile.functions [scope, Scope.outermost] p.functions {}
    return { name := p.name, functions }

/-- The structured code of a program that may be missing. -/
def CodeUnit.ofTree? : Option Tree.Program → Except Error CodeUnit
  | some p => ofTree p
  | none => .error (.reason .missingProgram)

end TreeMachine.Structured
