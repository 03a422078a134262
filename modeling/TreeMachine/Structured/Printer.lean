import TreeMachine.Structured.Basic
import TreeMachine.Text.Decimal

/-!
# Printed structured code

The text of nodes, functions and units. A node is an operation with its parts in
parentheses. A function prints one statement a line: sequences are opened up and labels
stand at the margin. A sequence with a missing statement has no text on one line; a notice
stands in its place.
-/

namespace TreeMachine.Structured

mutual

/-- Whether a statement is missing, or is a sequence with a missing one in it. -/
def Stmt.hasGap : Stmt → Bool
  | .skip => true
  | .seq ss => Stmt.anyGap ss
  | _ => false

def Stmt.anyGap : List Stmt → Bool
  | [] => false
  | s :: ss => s.hasGap || Stmt.anyGap ss

end

/-- What is shown for a statement with a gap, in the style of a failed conversion. -/
def gapNotice (verb : String) : String :=
  "%!" ++ verb ++ "(PANIC=String method: runtime error: " ++
    "invalid memory address or nil pointer dereference)"

mutual

def Stmt.text : Stmt → String
  | .seq ss => "SEQ(" ++ String.intercalate "; " (Stmt.texts ss) ++ ")"
  | .move target src => "MOVE(" ++ target.text ++ ", " ++ src.text ++ ")"
  | .exp x => "EXP(" ++ x.text ++ ")"
  | .jump target => "JUMP(" ++ target.text ++ ")"
  | .cjump cond yes no => "CJUMP(" ++ cond.text ++ ", " ++ yes ++ ", " ++ no ++ ")"
  | .label name => "LABEL " ++ name
  | .ret values => "RETURN(" ++ String.intercalate ", " (Expr.texts values) ++ ")"
  | .call returns target args =>
    "CALLSTMT[" ++ toString returns ++ "](" ++
      String.intercalate ", " (target.text :: Expr.texts args) ++ ")"
  | .skip => ""

def Expr.text : Expr → String
  | .const v => "CONST " ++ Decimal.ofInt32 v
  | .temp reg => "TEMP " ++ reg
  | .mem addr => "MEM(" ++ addr.text ++ ")"
  | .name label => "NAME " ++ label
  | .binop op left right =>
    "BINOP(" ++ op.text ++ ", " ++ left.text ++ ", " ++ right.text ++ ")"
  | .unop op x => "UNOP(" ++ op.text ++ ", " ++ x.text ++ ")"
  | .call target args =>
    "CALL(" ++ String.intercalate ", " (target.text :: Expr.texts args) ++ ")"
  | .eseq s x =>
    "ESEQ(" ++ (if s.hasGap then gapNotice "s" else s.text) ++ ", " ++ x.text ++ ")"

def Stmt.texts : List Stmt → List String
  | [] => []
  | s :: ss => s.text :: Stmt.texts ss

def Expr.texts : List Expr → List String
  | [] => []
  | x :: xs => x.text :: Expr.texts xs

end

def Node.text : Node → String
  | .stmt s => if s.hasGap then gapNotice "v" else s.text
  | .expr e => e.text

/-- The operation of a node, without its parts. A leaf shows what it holds. -/
def Node.operation : Node → String
  | .stmt (.seq _) => "SEQ"
  | .stmt (.move _ _) => "MOVE"
  | .stmt (.exp _) => "EXP"
  | .stmt (.jump _) => "JUMP"
  | .stmt (.cjump _ yes no) => "CJUMP " ++ yes ++ " " ++ no
  | .stmt (.ret values) => "RETURN/" ++ toString values.length
  | .stmt (.call returns _ args) =>
    "CALLSTMT[" ++ toString returns ++ "]/" ++ toString args.length
  | .expr (.mem _) => "MEM"
  | .expr (.binop op _ _) => "BINOP " ++ op.text
  | .expr (.unop op _) => "UNOP " ++ op.text
  | .expr (.call _ args) => "CALL/" ++ toString args.length
  | .expr (.eseq _ _) => "ESEQ"
  | n => n.text

mutual

/-- The lines of a statement in a function's text. -/
def Stmt.lines : Stmt → String
  | .seq ss => Stmt.linesOf ss
  | .label name => name ++ ":\n"
  | .skip => ""
  | s => "  " ++ s.text ++ "\n"

def Stmt.linesOf : List Stmt → String
  | [] => ""
  | s :: ss => s.lines ++ Stmt.linesOf ss

end

def Function.text (f : Function) : String :=
  "func " ++ f.name ++ "(" ++ String.intercalate ", " f.params ++ "):\n" ++ f.body.lines

def CodeUnit.text (u : CodeUnit) : String :=
  "unit " ++ u.name ++ "\n" ++ String.join (u.functions.map Function.text)

def CodeUnit.textOf : Option CodeUnit → String
  | some u => u.text
  | none => "<nil-hir-unit>"

end TreeMachine.Structured
