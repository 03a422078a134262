import TreeMachine.Structured.Basic

/-!
# Walking structured code

The nodes of a tree in pre-order: a node before its parts, the parts in the order they are
evaluated. A walk may leave out what is below some nodes.
-/

namespace TreeMachine.Structured

mutual

/-- The nodes of a statement in pre-order, not going below a node that `open?` rejects. -/
def Stmt.walk (open? : Node → Bool) : Stmt → List Node
  | .skip => []
  | .label name => [.stmt (.label name)]
  | .seq ss =>
    .stmt (.seq ss) :: if open? (.stmt (.seq ss)) then Stmt.walkAll open? ss else []
  | .move target src =>
    .stmt (.move target src) ::
      if open? (.stmt (.move target src)) then target.walk open? ++ src.walk open? else []
  | .exp x => .stmt (.exp x) :: if open? (.stmt (.exp x)) then x.walk open? else []
  | .jump target =>
    .stmt (.jump target) :: if open? (.stmt (.jump target)) then target.walk open? else []
  | .cjump cond yes no =>
    .stmt (.cjump cond yes no) ::
      if open? (.stmt (.cjump cond yes no)) then cond.walk open? else []
  | .ret values =>
    .stmt (.ret values) :: if open? (.stmt (.ret values)) then Expr.walkAll open? values else []
  | .call returns target args =>
    .stmt (.call returns target args) ::
      if open? (.stmt (.call returns target args)) then
        target.walk open? ++ Expr.walkAll open? args
      else []

def Expr.walk (open? : Node → Bool) : Expr → List Node
  | .const v => [.expr (.const v)]
  | .temp reg => [.expr (.temp reg)]
  | .name label => [.expr (.name label)]
  | .mem addr => .expr (.mem addr) :: if open? (.expr (.mem addr)) then addr.walk open? else []
  | .binop op left right =>
    .expr (.binop op left right) ::
      if open? (.expr (.binop op left right)) then left.walk open? ++ right.walk open? else []
  | .unop op x => .expr (.unop op x) :: if open? (.expr (.unop op x)) then x.walk open? else []
  | .call target args =>
    .expr (.call target args) ::
      if open? (.expr (.call target args)) then
        target.walk open? ++ Expr.walkAll open? args
      else []
  | .eseq s x =>
    .expr (.eseq s x) ::
      if open? (.expr (.eseq s x)) then s.walk open? ++ x.walk open? else []

def Stmt.walkAll (open? : Node → Bool) : List Stmt → List Node
  | [] => []
  | s :: ss => s.walk open? ++ Stmt.walkAll open? ss

def Expr.walkAll (open? : Node → Bool) : List Expr → List Node
  | [] => []
  | x :: xs => x.walk open? ++ Expr.walkAll open? xs

end

/-- The nodes of all functions of a unit in pre-order. -/
def CodeUnit.walk (u : CodeUnit) (open? : Node → Bool) : List Node :=
  u.functions.flatMap fun f => f.body.walk open?

mutual

/-- The registers a statement names, in pre-order. -/
def Stmt.temps : Stmt → List String
  | .skip => []
  | .label _ => []
  | .seq ss => Stmt.tempsAll ss
  | .move target src => target.temps ++ src.temps
  | .exp x => x.temps
  | .jump target => target.temps
  | .cjump cond _ _ => cond.temps
  | .ret values => Expr.tempsAll values
  | .call _ target args => target.temps ++ Expr.tempsAll args

/-- The registers an expression names, in pre-order. -/
def Expr.temps : Expr → List String
  | .const _ => []
  | .temp reg => [reg]
  | .name _ => []
  | .mem addr => addr.temps
  | .binop _ left right => left.temps ++ right.temps
  | .unop _ x => x.temps
  | .call target args => target.temps ++ Expr.tempsAll args
  | .eseq s x => s.temps ++ x.temps

def Stmt.tempsAll : List Stmt → List String
  | [] => []
  | s :: ss => s.temps ++ Stmt.tempsAll ss

def Expr.tempsAll : List Expr → List String
  | [] => []
  | x :: xs => x.temps ++ Expr.tempsAll xs

end

def CodeUnit.temps (u : CodeUnit) : List String :=
  u.functions.flatMap fun f => f.body.temps

end TreeMachine.Structured
