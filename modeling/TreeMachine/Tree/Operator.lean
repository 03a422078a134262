/-!
# Operators of program trees

The operators a program is written with. An operator outside the defined ones keeps its
number.
-/

namespace TreeMachine.Tree

/-- Binary operators. -/
inductive BinaryOp where
  | add
  | sub
  | mul
  | div
  | mod
  | bitAnd
  | bitOr
  | bitXor
  | shl
  | shr
  | eq
  | ne
  | lt
  | le
  | gt
  | ge
  | logAnd
  | logOr
  | undefined (code : Nat)
  deriving Repr, DecidableEq

namespace BinaryOp

/-- The defined operators in the order of their numbers, with their text. -/
def table : List (BinaryOp × String) :=
  [(add, "+"), (sub, "-"), (mul, "*"), (div, "/"), (mod, "%"), (bitAnd, "&"), (bitOr, "|"),
    (bitXor, "^"), (shl, "<<"), (shr, ">>"), (eq, "=="), (ne, "!="), (lt, "<"), (le, "<="),
    (gt, ">"), (ge, ">="), (logAnd, "&&"), (logOr, "||")]

def ofCode (code : Nat) : BinaryOp :=
  (table[code]?.map (·.1)).getD (undefined code)

def code : BinaryOp → Nat
  | undefined code => code
  | op => table.findIdx (·.1 == op)

def text : BinaryOp → String
  | undefined code => s!"binop({code})"
  | op => ((table.find? (·.1 == op)).map (·.2)).getD ""

def parse (s : String) : Option BinaryOp :=
  (table.find? (·.2 == s)).map (·.1)

def isComparison : BinaryOp → Bool
  | eq | ne | lt | le | gt | ge => true
  | _ => false

/-- Whether an operator decides by its left operand if its right one is evaluated. -/
def isLogical : BinaryOp → Bool
  | logAnd | logOr => true
  | _ => false

end BinaryOp

/-- Unary operators. -/
inductive UnaryOp where
  | neg
  | bitNot
  | logNot
  | undefined (code : Nat)
  deriving Repr, DecidableEq

namespace UnaryOp

/-- The defined operators in the order of their numbers, with their text. -/
def table : List (UnaryOp × String) :=
  [(neg, "-"), (bitNot, "~"), (logNot, "!")]

def ofCode (code : Nat) : UnaryOp :=
  (table[code]?.map (·.1)).getD (undefined code)

def code : UnaryOp → Nat
  | undefined code => code
  | op => table.findIdx (·.1 == op)

def text : UnaryOp → String
  | undefined code => s!"unop({code})"
  | op => ((table.find? (·.1 == op)).map (·.2)).getD ""

def parse (s : String) : Option UnaryOp :=
  (table.find? (·.2 == s)).map (·.1)

end UnaryOp

end TreeMachine.Tree
