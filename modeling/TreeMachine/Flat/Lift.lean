import TreeMachine.Flat.Basic

/-!
# Flat code as structured code

Every flat statement is a structured statement, so one machine runs both forms. A call
with a destination becomes a move of a call; any other call becomes a call statement.
-/

namespace TreeMachine.Flat

def Expr.lift : Expr → Structured.Expr
  | .const v => .const v
  | .temp reg => .temp reg
  | .mem addr => .mem addr.lift
  | .name label => .name label
  | .binop op left right => .binop op left.lift right.lift
  | .unop op x => .unop op x.lift

def Stmt.lift : Stmt → Structured.Stmt
  | .moveTemp name src => .move (.temp name) src.lift
  | .moveMem addr src => .move (.mem addr.lift) src.lift
  | .exp x => .exp x.lift
  | .jump target => .jump target.lift
  | .cjump cond yes no => .cjump cond.lift yes no
  | .label name => .label name
  | .ret values => .ret (values.map Expr.lift)
  | .call returns dest target args =>
    if dest.isEmpty then .call returns target.lift (args.map Expr.lift)
    else .move (.temp dest) (.call target.lift (args.map Expr.lift))

def Function.lift (f : Function) : Structured.Function where
  name := f.name
  params := f.params
  body := .seq (f.body.map Stmt.lift)

def CodeUnit.lift (u : CodeUnit) : Structured.CodeUnit where
  name := u.name
  functions := u.functions.map Function.lift

end TreeMachine.Flat
