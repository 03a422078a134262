import TreeMachine.Error
import TreeMachine.Tree.Ty

/-!
# Symbols and scopes

A symbol is one declaration. Symbols are told apart by their number, not by their name: an
inner declaration may have the name of an outer one. A scope lists its symbols in the
order of declaration, and no name twice.
-/

namespace TreeMachine.Tree

/-- What a symbol names. -/
inductive SymbolKind where
  | variable
  | parameter
  | function
  | builtin
  | unknown
  deriving Repr, DecidableEq

def SymbolKind.text : SymbolKind → String
  | .variable => "variable"
  | .parameter => "parameter"
  | .function => "function"
  | .builtin => "builtin"
  | .unknown => "unknown"

def SymbolKind.ofCode : Nat → SymbolKind
  | 0 => .variable
  | 1 => .parameter
  | 2 => .function
  | 3 => .builtin
  | _ => .unknown

/-- A declaration. -/
structure Symbol where
  /-- Different for every declaration of a program. -/
  id : Nat
  name : String
  kind : SymbolKind
  type : Option Ty := none
  /-- The types of the results, for what can be called. -/
  returns : List Ty := []
  deriving Repr, DecidableEq

namespace Symbol

def isCallable (s : Symbol) : Bool :=
  s.kind == .function || s.kind == .builtin

/-- The kind, the name and the type; for what can be called, the types of its results. -/
def text (s : Symbol) : String :=
  let types := if s.isCallable then s.returns.map Ty.text else [Ty.textOf s.type]
  String.intercalate " " (s.kind.text :: s.name :: types)

end Symbol

/-- The declarations of one scope in their order. -/
structure Scope where
  symbols : List Symbol := []
  deriving Repr, DecidableEq, Inhabited

namespace Scope

def find? (s : Scope) (name : String) : Option Symbol :=
  s.symbols.find? (·.name == name)

/-- Adds a declaration; a name can be declared once. -/
def define (s : Scope) (sym : Symbol) : Except Reason Scope :=
  match s.find? sym.name with
  | some _ => .error (.redeclared sym.kind.text sym.name)
  | none => .ok { symbols := s.symbols ++ [sym] }

/-- The declaration of a name in the innermost of several nested scopes that has one. -/
def lookup (scopes : List Scope) (name : String) : Option Symbol :=
  scopes.findSome? (·.find? name)

/-- The library routines that programs can call, with the types of their results. -/
def builtins : List (String × List Ty) :=
  [("assert", []), ("eof", [.bool]), ("getchar", [.int]), ("lengthBool", [.int]),
    ("lengthInt", [.int]), ("malloc", [.int]), ("parseInt", [.int, .bool]), ("print", []),
    ("println", []), ("readln", [.array .int]), ("unparseInt", [.array .int])]

/-- The outermost scope. Its symbols have the first numbers. -/
def outermost : Scope where
  symbols := builtins.zipIdx.map fun ((name, returns), id) =>
    { id, name, kind := .builtin, returns }

end Scope

end TreeMachine.Tree
