import TreeMachine.Proofs.Evaluation

/-!
# Confined code

Structured code in general may jump anywhere, with any operands on the stack. The code of
compiled programs is confined: a jump goes to a label that stands in a statement list around
it, and inside an expression to one within that expression. The only other labels it may
go to are those in a list `esc`, which stand in the outermost list of the function. Names
occur only as targets of jumps and calls, and what is called can be called.
-/

namespace TreeMachine.Structured

mutual

/-- A statement is confined where jumps may go to the labels in `scope`. -/
def Stmt.Confined (ok : String → Prop) (esc : List String) (scope : List String) : Stmt → Prop
  | .skip => True
  | .label _ => True
  | .seq ss =>
    (∀ l ∈ labelsIn ss, l ∉ esc) ∧ Stmt.ConfinedAll ok esc (labelsIn ss ++ scope) ss
  | .move (.temp _) src => src.Confined ok esc
  | .move (.mem addr) src => addr.Confined ok esc ∧ src.Confined ok esc
  | .move _ _ => False
  | .exp x => x.Confined ok esc
  | .jump (.name l) => l ∈ scope ∨ l ∈ esc
  | .jump _ => False
  | .cjump cond yes no =>
    cond.Confined ok esc ∧ (yes ∈ scope ∨ yes ∈ esc) ∧ (no ∈ scope ∨ no ∈ esc)
  | .ret values => Expr.ConfinedAll ok esc values
  | .call _ (.name f) args => ok f ∧ Expr.ConfinedAll ok esc args
  | .call _ _ _ => False

def Expr.Confined (ok : String → Prop) (esc : List String) : Expr → Prop
  | .const _ => True
  | .temp _ => True
  | .name _ => False
  | .mem addr => addr.Confined ok esc
  | .binop op left right =>
    op ∈ BinOp.defined ∧ left.Confined ok esc ∧ right.Confined ok esc
  | .unop _ x => x.Confined ok esc
  | .call (.name f) args => ok f ∧ Expr.ConfinedAll ok esc args
  | .call _ _ => False
  | .eseq s x => s.Confined ok esc [] ∧ x.Confined ok esc

def Stmt.ConfinedAll (ok : String → Prop) (esc : List String) (scope : List String) :
    List Stmt → Prop
  | [] => True
  | s :: ss => s.Confined ok esc scope ∧ Stmt.ConfinedAll ok esc scope ss

def Expr.ConfinedAll (ok : String → Prop) (esc : List String) : List Expr → Prop
  | [] => True
  | x :: xs => x.Confined ok esc ∧ Expr.ConfinedAll ok esc xs

end

/-- The label that a function's code goes to when an index is out of bounds. -/
def trapOf (f : String) : String :=
  f ++ ".bounds"

/-- What stands at the end of a function with a trap, where nothing runs into it: the label
of the trap, and the call that reports the index. -/
def trapEnd (f g : String) : List Stmt :=
  [.label (trapOf f), .exp (.call (.name g) [])]

/-- The body of a function is confined. It is a list of statements; the last ones may be the
trap, and then anything before may escape to it. -/
def Function.Confined (ok : String → Prop) (f : Function) : Prop :=
  ∃ ss esc ts, f.body = .seq (ss ++ ts) ∧ Stmt.ConfinedAll ok esc (labelsIn ss) ss ∧
    (esc = [] ∧ ts = [] ∨
      ∃ g, ok g ∧ esc = [trapOf f.name] ∧ ts = trapEnd f.name g ∧ trapOf f.name ∉ labelsIn ss)

lemma Function.confined_of_seq {f : Function} (hbody : f.body = .seq ss)
    (h : Stmt.ConfinedAll ok [] (labelsIn ss) ss) : f.Confined ok :=
  ⟨ss, [], [], by rw [hbody, List.append_nil], h, .inl ⟨rfl, rfl⟩⟩

lemma Stmt.confinedAll_iff :
    Stmt.ConfinedAll ok esc scope ss ↔ ∀ s ∈ ss, s.Confined ok esc scope := by
  induction ss with
  | nil => simp [Stmt.ConfinedAll]
  | cons s ss ih => simp [Stmt.ConfinedAll, ih]

lemma Expr.confinedAll_iff : Expr.ConfinedAll ok esc xs ↔ ∀ x ∈ xs, x.Confined ok esc := by
  induction xs with
  | nil => simp [Expr.ConfinedAll]
  | cons x xs ih => simp [Expr.ConfinedAll, ih]

/-! ### Labels of a statement list -/

@[simp] lemma label?_label (l : String) : (Stmt.label l).label? = some l := rfl

@[simp] lemma label?_seq (ss : List Stmt) : (Stmt.seq ss).label? = none := rfl

@[simp] lemma label?_move (target src : Expr) : (Stmt.move target src).label? = none := rfl

@[simp] lemma label?_jump (target : Expr) : (Stmt.jump target).label? = none := rfl

@[simp] lemma label?_cjump (cond : Expr) (yes no : String) :
    (Stmt.cjump cond yes no).label? = none := rfl

@[simp] lemma label?_exp (x : Expr) : (Stmt.exp x).label? = none := rfl

@[simp] lemma label?_ret (xs : List Expr) : (Stmt.ret xs).label? = none := rfl

@[simp] lemma label?_call (n : Int) (f : Expr) (xs : List Expr) :
    (Stmt.call n f xs).label? = none := rfl

lemma label?_eq_some {s : Stmt} : s.label? = some l ↔ s = .label l := by
  cases s <;> simp [Stmt.label?]

lemma mem_labelsIn {ss : List Stmt} {l : String} : l ∈ labelsIn ss ↔ .label l ∈ ss := by
  simp [labelsIn, label?_eq_some]

@[simp] lemma labelsIn_nil : labelsIn [] = [] := rfl

lemma labelsIn_cons (s : Stmt) (ss : List Stmt) :
    labelsIn (s :: ss) = s.label?.toList ++ labelsIn ss := by
  cases h : s.label? <;> simp [labelsIn, h]

@[simp] lemma labelsIn_append (ss ts : List Stmt) :
    labelsIn (ss ++ ts) = labelsIn ss ++ labelsIn ts := by
  simp [labelsIn]

end TreeMachine.Structured
