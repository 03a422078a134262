import TreeMachine.Flat.Basic
import TreeMachine.Text.Decimal

/-!
# Printed flat code

One statement a line, with labels at the margin.
-/

namespace TreeMachine.Flat

def Expr.text : Expr → String
  | .const v => "CONST " ++ Decimal.ofInt32 v
  | .temp reg => "TEMP " ++ reg
  | .mem addr => "MEM(" ++ addr.text ++ ")"
  | .name label => "NAME " ++ label
  | .binop op left right =>
    "BINOP(" ++ op.text ++ ", " ++ left.text ++ ", " ++ right.text ++ ")"
  | .unop op x => "UNOP(" ++ op.text ++ ", " ++ x.text ++ ")"

/-- The texts of expressions, separated by commas. -/
def listText (xs : List Expr) : String :=
  String.intercalate ", " (xs.map Expr.text)

def Stmt.text : Stmt → String
  | .moveTemp name src => "MOVE(TEMP " ++ name ++ ", " ++ src.text ++ ")"
  | .moveMem addr src => "MOVE(MEM(" ++ addr.text ++ "), " ++ src.text ++ ")"
  | .exp x => "EXP(" ++ x.text ++ ")"
  | .jump target => "JUMP(" ++ target.text ++ ")"
  | .cjump cond yes no => "CJUMP(" ++ cond.text ++ ", " ++ yes ++ ", " ++ no ++ ")"
  | .label name => "LABEL " ++ name
  | .ret values => "RETURN(" ++ listText values ++ ")"
  | .call returns dest target args =>
    "CALLM[" ++ toString returns ++ "](" ++ listText (target :: args) ++ ")" ++
      if dest.isEmpty then "" else " -> " ++ dest

/-- The line of a statement in a function's text. -/
def Stmt.line : Stmt → String
  | .label name => name ++ ":\n"
  | s => "  " ++ s.text ++ "\n"

def Function.text (f : Function) : String :=
  "func " ++ f.name ++ "(" ++ String.intercalate ", " f.params ++ "):\n" ++
    String.join (f.body.map Stmt.line)

def CodeUnit.text (u : CodeUnit) : String :=
  "lir unit " ++ u.name ++ "\n" ++ String.join (u.functions.map Function.text)

def CodeUnit.textOf : Option CodeUnit → String
  | some u => u.text
  | none => "<nil-lir-unit>"

end TreeMachine.Flat
