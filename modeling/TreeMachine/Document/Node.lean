import TreeMachine.Document.Json

/-!
# Nodes of a document

The records a program document is made of. Every statement and expression is the same
record; its kind says which fields count. A field that is missing or `null` is empty. A
repeated field is read over what was there before: a record keeps the fields that are not
repeated, and so do the records of a list, place by place. The places of a list outlast a
shorter list that is read over it, until an empty list or `null` clears them.

The field `value` is kept as it was written. Elsewhere unknown fields are refused; inside a
kept value they are allowed.
-/

namespace TreeMachine.Document

/-- A list field: its items, and what an earlier, longer list has left in the places after
them. -/
structure Row (α : Type) where
  items : List α := []
  spare : List α := []
  deriving Repr, Inhabited

def Row.places {α : Type} (r : Row α) : List α :=
  r.items ++ r.spare

/-- The list field after new items were read over it. -/
def Row.over {α : Type} (r : Row α) (items : List α) : Row α :=
  if items.isEmpty then {} else { items, spare := r.places.drop items.length }

/-- The fields of a node that are no nodes themselves. -/
structure Attrs where
  kind : String := ""
  line : Int := 0
  col : Int := 0
  name : String := ""
  type : String := ""
  op : String := ""
  func : String := ""
  targets : Row String := {}
  deriving Repr

/-- A statement or expression. A list of nodes can have missing ones. -/
structure Node where
  attrs : Attrs := {}
  /-- The kept value: its text, the value, and the node it can be read as. -/
  value : Option (String × Json × Option Node) := none
  start : Option Node := none
  elements : Option (Row (Option Node)) := none
  size : Row (Option Node) := {}
  target : Option Node := none
  call : Option Node := none
  cond : Option Node := none
  yes : Row (Option Node) := {}
  no : Option (Row (Option Node)) := none
  body : Row (Option Node) := {}
  values : Row (Option Node) := {}
  x : Option Node := none
  left : Option Node := none
  right : Option Node := none
  array : Option Node := none
  index : Option Node := none
  args : Row (Option Node) := {}
  deriving Inhabited

def textField (old : String) : Json → Option String
  | .null => some old
  | .str s => some s
  | _ => none

def intField (old : Int) : Json → Option Int
  | .null => some old
  | .num text => Json.intIn? Int64.minValue.toInt Int64.maxValue.toInt text
  | _ => none

/-- The texts of a list, read over the ones in its places. -/
def textItems (old : List String) : List Json → Option (List String)
  | [] => some []
  | v :: vs => do
    let s ← textField (old.headD "") v
    let ss ← textItems old.tail vs
    return s :: ss

def textsField (old : Row String) : Json → Option (Row String)
  | .null => some {}
  | .arr vs => (textItems old.places vs).map old.over
  | _ => none

def nodeFields : List String :=
  ["kind", "line", "col", "name", "type", "op", "func", "value", "targets", "init", "elements",
    "size", "target", "call", "cond", "then", "else", "body", "values", "x", "left", "right",
    "array", "index", "args"]

/-- Reads one field of a node over what was there. The value can be read as a node, as a list of
nodes and as a kept value. -/
def nodeOfField (strict : Bool) (n : Node) (key text : String) (v : Json)
    (node : Option Node → Option (Option Node))
    (nodes : Row (Option Node) → Option (Option (Row (Option Node))))
    (kept : Unit → Option Node) : Option Node :=
  match Json.fieldName? nodeFields key with
  | some "kind" => do return { n with attrs.kind := ← textField n.attrs.kind v }
  | some "line" => do return { n with attrs.line := ← intField n.attrs.line v }
  | some "col" => do return { n with attrs.col := ← intField n.attrs.col v }
  | some "name" => do return { n with attrs.name := ← textField n.attrs.name v }
  | some "type" => do return { n with attrs.type := ← textField n.attrs.type v }
  | some "op" => do return { n with attrs.op := ← textField n.attrs.op v }
  | some "func" => do return { n with attrs.func := ← textField n.attrs.func v }
  | some "targets" => do return { n with attrs.targets := ← textsField n.attrs.targets v }
  | some "value" => some { n with value := some (text, v, kept ()) }
  | some "init" => do return { n with start := ← node n.start }
  | some "target" => do return { n with target := ← node n.target }
  | some "call" => do return { n with call := ← node n.call }
  | some "cond" => do return { n with cond := ← node n.cond }
  | some "x" => do return { n with x := ← node n.x }
  | some "left" => do return { n with left := ← node n.left }
  | some "right" => do return { n with right := ← node n.right }
  | some "array" => do return { n with array := ← node n.array }
  | some "index" => do return { n with index := ← node n.index }
  | some "elements" => do return { n with elements := ← nodes (n.elements.getD {}) }
  | some "else" => do return { n with no := ← nodes (n.no.getD {}) }
  | some "size" => do return { n with size := (← nodes n.size).getD {} }
  | some "then" => do return { n with yes := (← nodes n.yes).getD {} }
  | some "body" => do return { n with body := (← nodes n.body).getD {} }
  | some "values" => do return { n with values := (← nodes n.values).getD {} }
  | some "args" => do return { n with args := (← nodes n.args).getD {} }
  | _ => if strict then none else some n

mutual

def nodeField (strict : Bool) (old : Option Node) : Json → Option (Option Node)
  | .null => some none
  | .obj fs => (nodeOfFields strict (old.getD {}) fs).map some
  | _ => none

/-- Reads the fields of a node one after the other. -/
def nodeOfFields (strict : Bool) (n : Node) : List (String × String × Json) → Option Node
  | [] => some n
  | (key, text, v) :: rest => do
    let n ← nodeOfField strict n key text v (fun old => nodeField strict old v)
      (fun old => nodesField strict old v) fun _ => keptNode v
    nodeOfFields strict n rest

/-- The node that a kept value can be read as; `null` is the empty one. -/
def keptNode : Json → Option Node
  | .null => some {}
  | .obj fs => nodeOfFields false {} fs
  | _ => none

/-- Reads a list of nodes over the one that was there; `null` is no list. -/
def nodesField (strict : Bool) (old : Row (Option Node)) :
    Json → Option (Option (Row (Option Node)))
  | .null => some none
  | .arr vs => (nodeItems strict old.places vs).map fun ns => some (old.over ns)
  | _ => none

def nodeItems (strict : Bool) (old : List (Option Node)) :
    List Json → Option (List (Option Node))
  | [] => some []
  | v :: vs => do
    let n ← nodeField strict old.head?.join v
    let ns ← nodeItems strict old.tail vs
    return n :: ns

end

/-- A parameter of a function. -/
structure ParamRecord where
  name : String := ""
  type : String := ""
  deriving Repr, Inhabited

def paramOfFields (p : ParamRecord) : List (String × String × Json) → Option ParamRecord
  | [] => some p
  | (key, _, v) :: rest => do
    let p ← match Json.fieldName? ["name", "type"] key with
      | some "name" => do pure { p with name := ← textField p.name v }
      | some "type" => do pure { p with type := ← textField p.type v }
      | _ => none
    paramOfFields p rest

/-- Reads a parameter over the one that was there. -/
def paramField (old : Option ParamRecord) : Json → Option (Option ParamRecord)
  | .null => some none
  | .obj fs => (paramOfFields (old.getD {}) fs).map some
  | _ => none

/-- Reads parameters over the ones in their places. -/
def paramItems (old : List (Option ParamRecord)) :
    List Json → Option (List (Option ParamRecord))
  | [] => some []
  | v :: vs => do
    let p ← paramField old.head?.join v
    let ps ← paramItems old.tail vs
    return p :: ps

/-- A function. -/
structure FunctionRecord where
  name : String := ""
  line : Int := 0
  col : Int := 0
  params : Row (Option ParamRecord) := {}
  returns : Row String := {}
  body : Row (Option Node) := {}
  deriving Inhabited

def functionFields : List String :=
  ["name", "line", "col", "params", "returns", "body"]

def functionOfField (f : FunctionRecord) (key : String) (v : Json) : Option FunctionRecord :=
  match Json.fieldName? functionFields key with
  | some "name" => do return { f with name := ← textField f.name v }
  | some "line" => do return { f with line := ← intField f.line v }
  | some "col" => do return { f with col := ← intField f.col v }
  | some "params" =>
    match v with
    | .null => some { f with params := {} }
    | .arr vs => do return { f with params := f.params.over (← paramItems f.params.places vs) }
    | _ => none
  | some "returns" => do return { f with returns := ← textsField f.returns v }
  | some "body" => do return { f with body := (← nodesField true f.body v).getD {} }
  | _ => none

/-- Reads the fields of a function one after the other. -/
def functionOfFields (f : FunctionRecord) (fs : List (String × String × Json)) :
    Option FunctionRecord :=
  fs.foldlM (fun f field => functionOfField f field.1 field.2.2) f

/-- Reads a function over the one that was there. -/
def functionField (old : Option FunctionRecord) : Json → Option (Option FunctionRecord)
  | .null => some none
  | .obj fs => (functionOfFields (old.getD {}) fs).map some
  | _ => none

/-- Reads functions over the ones in their places. -/
def functionItems (old : List (Option FunctionRecord)) :
    List Json → Option (List (Option FunctionRecord))
  | [] => some []
  | v :: vs => do
    let f ← functionField old.head?.join v
    let fs ← functionItems old.tail vs
    return f :: fs

/-- A program document. -/
structure ProgramRecord where
  format : String := ""
  name : String := ""
  functions : Row (Option FunctionRecord) := {}
  deriving Inhabited

def programFields : List String :=
  ["format", "name", "functions"]

def programOfField (p : ProgramRecord) (key : String) (v : Json) : Option ProgramRecord :=
  match Json.fieldName? programFields key with
  | some "format" => do return { p with format := ← textField p.format v }
  | some "name" => do return { p with name := ← textField p.name v }
  | some "functions" =>
    match v with
    | .null => some { p with functions := {} }
    | .arr vs => do
      return { p with functions := p.functions.over (← functionItems p.functions.places vs) }
    | _ => none
  | _ => none

/-- Reads the fields of a program document one after the other. -/
def programOfFields (p : ProgramRecord) (fs : List (String × String × Json)) :
    Option ProgramRecord :=
  fs.foldlM (fun p field => programOfField p field.1 field.2.2) p

/-- Reads a program document from the first value of a text. -/
def readProgram? (s : String) : Option ProgramRecord :=
  match Json.readFirst? s with
  | some (.obj fs, _) => programOfFields {} fs
  | some (.null, _) => some {}
  | _ => none

end TreeMachine.Document
