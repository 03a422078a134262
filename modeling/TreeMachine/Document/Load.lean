import TreeMachine.Document.Node
import TreeMachine.Tree.Resolve

/-!
# Loading programs

Makes the tree of a program from its document: the records are read, the version is
checked, the tree is built function by function, and its names are resolved. The first
error met in this order is the one reported.
-/

namespace TreeMachine.Document

open TreeMachine.Tree (Ty BinaryOp UnaryOp)

/-- The place of a record. A record without a line has none; columns count from one. -/
def placeOf (file : String) (line col : Int) : Span :=
  if line ≤ 0 then {} else Span.point file line (if col ≤ 0 then 1 else col)

def Attrs.place (a : Attrs) (file : String) : Span :=
  placeOf file a.line a.col

/-- The fault of something that programs do not have. -/
def unsupported {α : Type} (what : String) (span : Span) : Except Error α :=
  .error (.fault (.unsupportedNode what) span)

def typeOf (s : String) (span : Span) : Except Error Ty :=
  match Ty.parse s with
  | some t => .ok t
  | none => unsupported ("type " ++ Text.quote s) span

/-- The text of a kept value; a missing one is empty. -/
def keptText : Option (String × Json × Option Node) → String
  | some (text, _, _) => text
  | none => ""

def keptInt? : Option (String × Json × Option Node) → Option Int32
  | some (_, .null, _) => some 0
  | some (_, .num text, _) =>
    (Json.intIn? Int32.minValue.toInt Int32.maxValue.toInt text).map Int32.ofInt
  | _ => none

def keptBool? : Option (String × Json × Option Node) → Option Bool
  | some (_, .null, _) => some false
  | some (_, .bool b, _) => some b
  | _ => none

def keptString? : Option (String × Json × Option Node) → Option String
  | some (_, .null, _) => some ""
  | some (_, .str s, _) => some s
  | _ => none

mutual

def exprOf (file : String) : Node → Except Error Tree.Expr
  | { attrs, value, x, left, right, array, index, args := ⟨args, _⟩, .. } =>
    let span := attrs.place file
    match attrs.kind with
    | "int" =>
      match keptInt? value with
      | some v => .ok (.int span v)
      | none => unsupported ("int literal " ++ keptText value) span
    | "bool" =>
      match keptBool? value with
      | some v => .ok (.bool span v)
      | none => unsupported ("bool literal " ++ keptText value) span
    | "string" =>
      match keptString? value with
      | some v => .ok (.string span v)
      | none => unsupported ("string literal " ++ keptText value) span
    | "ident" => .ok (.ident { span, name := attrs.name })
    | "index" => do
      let array ← partOf file array
      let index ← partOf file index
      return .index span none array index
    | "binary" =>
      match BinaryOp.parse attrs.op with
      | none => .error (.fault (.unsupportedOperator attrs.op) span)
      | some op => do
        let left ← partOf file left
        let right ← partOf file right
        return .binary span none op left right
    | "unary" =>
      match UnaryOp.parse attrs.op with
      | none => .error (.fault (.unsupportedOperator attrs.op) span)
      | some op => do
        let x ← partOf file x
        return .unary span none op x
    | "call" => do
      let args ← exprsOf file args
      return .call span none attrs.func args
    | kind => unsupported ("expression kind " ++ Text.quote kind) span

/-- The expression of a node that may be missing. -/
def partOf (file : String) : Option Node → Except Error Tree.Expr
  | none => unsupported "missing expression" {}
  | some n => exprOf file n

def exprsOf (file : String) : List (Option Node) → Except Error (List Tree.Expr)
  | [] => .ok []
  | n :: ns => do
    let x ← partOf file n
    let xs ← exprsOf file ns
    return x :: xs

end

def keptExpr (file : String) : Option (String × Json × Option Node) → Except Error Tree.Expr
  | none => unsupported "missing value expression" {}
  | some (_, _, none) => .error (.reason .malformedValue)
  | some (_, _, some n) => exprOf file n

mutual

def stmtOf (file : String) : Node → Except Error Tree.Stmt
  | { attrs, value, start, elements, size, target, call, cond, yes := ⟨yes, _⟩, no,
      body := ⟨body, _⟩, values, x, .. } =>
    let span := attrs.place file
    match attrs.kind with
    | "var" => do
      let type ← typeOf attrs.type span
      match start with
      | none => return .var span attrs.name (some type) none
      | some n => return .var span attrs.name (some type) (some (← exprOf file n))
    | "array" => do
      let type ← typeOf attrs.type span
      if !type.isArray then
        unsupported ("array declaration of non-array type " ++ type.text) span
      let sizes ← exprsOf file size.items
      let elements ← exprsOf file (elements.getD {}).items
      return .array span attrs.name (some type) sizes elements
    | "assign" => do
      let target ← partOf file target
      let value ← keptExpr file value
      return .assign span target value
    | "multi" => do
      match ← partOf file call with
      | .call callSpan type func args =>
        let targets := attrs.targets.items.map fun name => { span, name : Tree.Ident }
        return .multi span targets callSpan type func args
      | _ => unsupported "multi-assignment from a non-call" span
    | "if" => do
      let cond ← partOf file cond
      let yes ← stmtsOf file yes
      match no with
      | none => return .branch span cond (.block span none yes) none
      | some ⟨no, _⟩ =>
        let no ← stmtsOf file no
        return .branch span cond (.block span none yes) (some (.block span none no))
    | "while" => do
      let cond ← partOf file cond
      let body ← stmtsOf file body
      return .loop span cond (.block span none body)
    | "return" => do
      let values ← exprsOf file values.items
      return .ret span values
    | "expr" => do
      let x ← partOf file x
      return .expr span x
    | "block" => do
      let body ← stmtsOf file body
      return .block span none body
    | kind => unsupported ("statement kind " ++ Text.quote kind) span

def stmtsOf (file : String) : List (Option Node) → Except Error (List Tree.Stmt)
  | [] => .ok []
  | none :: _ => unsupported "missing statement" {}
  | some n :: ns => do
    let s ← stmtOf file n
    let ss ← stmtsOf file ns
    return s :: ss

end

/-- The parameters of a function. A missing record has no type to read. -/
def paramsOf (span : Span) : List (Option ParamRecord) → Except Error (List Tree.Param)
  | [] => .ok []
  | none :: _ => .error (.crash .missingPart)
  | some p :: ps => do
    let type ← typeOf p.type span
    let rest ← paramsOf span ps
    return { span, name := p.name, type := some type } :: rest

def functionOf (file : String) (f : FunctionRecord) : Except Error Tree.Function := do
  let span := placeOf file f.line f.col
  let params ← paramsOf span f.params.items
  let returns ← f.returns.items.mapM (typeOf · span)
  let stmts ← Error.wrap s!"function {f.name}" (stmtsOf file f.body.items)
  return { span, name := f.name, params, returns, body := some { span, stmts } }

/-- The functions of records in order. A missing record has nothing to read. -/
def functionsOf (file : String) :
    List (Option FunctionRecord) → Except Error (List Tree.Function)
  | [] => .ok []
  | none :: _ => .error (.crash .missingPart)
  | some f :: fs => do
    let f ← functionOf file f
    let rest ← functionsOf file fs
    return f :: rest

/-- Loads a program from the text of a document. The file, if it has a name, is part of the
places in the tree; `check` knows the versions that can be read. -/
def load (text : String) (file : String := "")
    (check : String → Except Reason Unit := Version.check) : Except Error Tree.Program :=
  match readProgram? text with
  | none => .error (.reason .malformedProgram)
  | some p => do
    (check p.format).mapError .reason
    let functions ← functionsOf file p.functions.items
    Tree.Program.resolve { name := p.name, functions }

end TreeMachine.Document
