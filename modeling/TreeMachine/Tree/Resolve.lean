import TreeMachine.Tree.Basic

/-!
# Resolving names

Gives every block its scope, every identifier its declaration and every expression its
type. A name stands for the declaration in the innermost scope around it that has already
declared it at that point. Types are attached and not checked.

Declarations are numbered in the order in which they are met, after the built-in ones and
the functions.
-/

namespace TreeMachine.Tree

abbrev Resolving := StateT Nat (Except Error)

/-- The fault of a name that no scope declares in the way it is used. -/
def unresolved (name : String) (span : Span) : Error :=
  .fault (.unresolvedScope name) span

def declare (scope : Scope) (sym : Symbol) (span : Span) : Except Error Scope :=
  match scope.define sym with
  | .ok scope => .ok scope
  | .error why => .error (.fault (.unsupportedNode why.message) span)

def declareNext (scope : Scope) (kind : SymbolKind) (name : String) (type : Option Ty)
    (span : Span) : Resolving Scope := do
  let id ← modifyGet fun n => (n, n + 1)
  declare scope { id, name, kind, type } span

def resolveIdent (scopes : List Scope) (id : Ident) : Except Error Ident :=
  match Scope.lookup scopes id.name with
  | some sym =>
    if sym.isCallable then .error (unresolved id.name id.span)
    else .ok { id with type := sym.type, symbol := some sym }
  | none => .error (unresolved id.name id.span)

/-- The type of the first result of a function that can be called by this name. -/
def calleeType (scopes : List Scope) (func : String) (span : Span) : Except Error Ty :=
  match Scope.lookup scopes func with
  | some sym =>
    if sym.isCallable then .ok (sym.returns.headD .void) else .error (unresolved func span)
  | none => .error (unresolved func span)

mutual

def resolveExpr (scopes : List Scope) : Expr → Except Error Expr
  | .int span v => .ok (.int span v)
  | .bool span v => .ok (.bool span v)
  | .string span s => .ok (.string span s)
  | .ident id => do return .ident (← resolveIdent scopes id)
  | .index span type array idx => do
    let array ← resolveExpr scopes array
    let idx ← resolveExpr scopes idx
    return .index span ((array.type.bind Ty.elem?).or type) array idx
  | .binary span _ op left right => do
    let left ← resolveExpr scopes left
    let right ← resolveExpr scopes right
    let type : Ty := if op.isComparison || op.isLogical then .bool else .int
    return .binary span (some type) op left right
  | .unary span _ op x => do
    let x ← resolveExpr scopes x
    let type : Ty := if op = .logNot then .bool else .int
    return .unary span (some type) op x
  | .call span _ func args => do
    let type ← calleeType scopes func span
    let args ← resolveExprs scopes args
    return .call span (some type) func args

def resolveExprs (scopes : List Scope) : List Expr → Except Error (List Expr)
  | [] => .ok []
  | x :: xs => do
    let x ← resolveExpr scopes x
    let xs ← resolveExprs scopes xs
    return x :: xs

end

mutual

/-- Resolves a statement in the scope `inner` inside the scopes `outer`, and gives the
scope with what the statement declares. -/
def resolveStmt (inner : Scope) (outer : List Scope) : Stmt → Resolving (Stmt × Scope)
  | .block span _ stmts => do
    let (stmts, scope) ← resolveStmts {} (inner :: outer) stmts
    return (.block span (some scope) stmts, inner)
  | .var span name type (some x) => do
    let x ← resolveExpr (inner :: outer) x
    let inner ← declareNext inner .variable name type span
    return (.var span name type (some x), inner)
  | .var span name type none => do
    let inner ← declareNext inner .variable name type span
    return (.var span name type none, inner)
  | .array span name type sizes elements => do
    let sizes ← resolveExprs (inner :: outer) sizes
    let elements ← resolveExprs (inner :: outer) elements
    let inner ← declareNext inner .variable name type span
    return (.array span name type sizes elements, inner)
  | .assign span target value => do
    let target ← resolveExpr (inner :: outer) target
    let value ← resolveExpr (inner :: outer) value
    return (.assign span target value, inner)
  | .multi span targets callSpan _ func args => do
    let type ← calleeType (inner :: outer) func callSpan
    let args ← resolveExprs (inner :: outer) args
    let targets ← targets.mapM fun id => resolveIdent (inner :: outer) id
    return (.multi span targets callSpan (some type) func args, inner)
  | .branch span cond yes none => do
    let cond ← resolveExpr (inner :: outer) cond
    let (yes, inner) ← resolveStmt inner outer yes
    return (.branch span cond yes none, inner)
  | .branch span cond yes (some no) => do
    let cond ← resolveExpr (inner :: outer) cond
    let (yes, inner) ← resolveStmt inner outer yes
    let (no, inner) ← resolveStmt inner outer no
    return (.branch span cond yes (some no), inner)
  | .loop span cond body => do
    let cond ← resolveExpr (inner :: outer) cond
    let (body, inner) ← resolveStmt inner outer body
    return (.loop span cond body, inner)
  | .ret span values => do
    let values ← resolveExprs (inner :: outer) values
    return (.ret span values, inner)
  | .expr span x => do
    let x ← resolveExpr (inner :: outer) x
    return (.expr span x, inner)
  | .missing => return (.missing, inner)

/-- Resolves statements in order; each sees what the ones before it declare. -/
def resolveStmts (inner : Scope) (outer : List Scope) :
    List Stmt → Resolving (List Stmt × Scope)
  | [] => return ([], inner)
  | s :: ss => do
    let (s, inner) ← resolveStmt inner outer s
    let (ss, inner) ← resolveStmts inner outer ss
    return (s :: ss, inner)

end

def paramScope (scope : Scope) : List Param → Resolving Scope
  | [] => return scope
  | p :: ps => do
    let scope ← declareNext scope .parameter p.name p.type p.span
    paramScope scope ps

/-- Resolves a function. A missing body counts as an empty one. -/
def resolveFunction (outer : List Scope) (f : Function) : Resolving Function := do
  let params ← paramScope {} f.params
  let body := f.body.getD { span := f.span }
  let (stmts, scope) ← resolveStmts {} (params :: outer) body.stmts
  return { f with scope := some params, body := some { body with stmts, scope := some scope } }

/-- Resolves functions in order, with the function's name in front of its errors. -/
def resolveFunctions (outer : List Scope) :
    List Function → Nat → Except Error (List Function)
  | [], _ => .ok []
  | f :: fs, n => do
    let (f, n) ← Error.wrap s!"function {f.name}" ((resolveFunction outer f).run n)
    let fs ← resolveFunctions outer fs n
    return f :: fs

def functionScope (scope : Scope) : List Function → Resolving Scope
  | [] => return scope
  | f :: fs => do
    let id ← modifyGet fun n => (n, n + 1)
    let scope ← declare scope { id, name := f.name, kind := .function, returns := f.returns } f.span
    functionScope scope fs

def Program.resolve (p : Program) : Except Error Program := do
  let (scope, n) ← (functionScope {} p.functions).run Scope.builtins.length
  let functions ← resolveFunctions [scope, Scope.outermost] p.functions n
  return { p with functions, scope := some scope }

end TreeMachine.Tree
