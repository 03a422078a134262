import TreeMachine.Proofs.Layout

/-!
# What code does to the operand stack

Every node takes a fixed number of operands and leaves one or none. So the height of the
stack at an address is known from the code alone: `Program.level` adds up what the nodes
before the address do. A whole expression leaves one operand more than there were, a whole
statement none.
-/

namespace TreeMachine.Linear

open Structured

/-! ### Nodes -/

/-- How many operands a node takes off the stack. -/
def pops : Node → Nat
  | .expr (.mem _) => 1
  | .expr (.binop _ _ _) => 2
  | .expr (.unop _ _) => 1
  | .expr (.call _ args) => args.length + 1
  | .expr _ => 0
  | .stmt (.move _ _) => 2
  | .stmt (.exp _) => 1
  | .stmt (.jump _) => 1
  | .stmt (.cjump _ _ _) => 1
  | .stmt (.ret values) => values.length
  | .stmt (.call _ _ args) => args.length + 1
  | .stmt _ => 0

/-- How many operands a node puts on the stack. The last part of an `eseq` has already left
its operand. -/
def pushes : Node → Nat
  | .expr (.eseq _ _) => 0
  | .expr _ => 1
  | .stmt _ => 0

/-- How many operands a whole statement or expression leaves. -/
def leaves : Node → Nat
  | .expr _ => 1
  | .stmt _ => 0

def IsJump (n : Node) : Prop :=
  (∃ x, n = .stmt (.jump x)) ∨ ∃ x yes no, n = .stmt (.cjump x yes no)

/-- What a node adds to the height of the stack. -/
def effect (n : Node) : Int :=
  (pushes n : Int) - pops n

def gain (ns : List Node) : Int :=
  (ns.map effect).sum

@[simp] lemma gain_nil : gain [] = 0 := rfl

@[simp] lemma gain_cons (n : Node) (ns : List Node) : gain (n :: ns) = effect n + gain ns := rfl

@[simp] lemma gain_append (ns ms : List Node) : gain (ns ++ ms) = gain ns + gain ms := by
  simp [gain]

/-! ### Whole statements and expressions -/

mutual

/-- A whole statement leaves the stack as high as it was. -/
lemma gain_itemsOf : (s : Stmt) → gain (nodes (itemsOf s)) = 0
  | .skip => rfl
  | .label _ => rfl
  | .seq ss => by
    simp [itemsOf, nodes, effect, pushes, pops, gain_itemsOfAll ss]
  | .move target src => by
    simp [itemsOf, nodes, effect, pushes, pops, gain_itemsOfExpr target, gain_itemsOfExpr src]
  | .exp x => by simp [itemsOf, nodes, effect, pushes, pops, gain_itemsOfExpr x]
  | .jump x => by simp [itemsOf, nodes, effect, pushes, pops, gain_itemsOfExpr x]
  | .cjump x _ _ => by simp [itemsOf, nodes, effect, pushes, pops, gain_itemsOfExpr x]
  | .ret xs => by
    simp only [itemsOf, nodes_append, gain_append, gain_itemsOfExprs xs, nodes, gain_cons,
      gain_nil, effect, pushes, pops]
    omega
  | .call _ target args => by
    simp only [itemsOf, nodes_append, gain_append, gain_itemsOfExpr target,
      gain_itemsOfExprs args, nodes, gain_cons, gain_nil, effect, pushes, pops]
    omega

/-- A whole expression leaves one operand. -/
lemma gain_itemsOfExpr : (x : Expr) → gain (nodes (itemsOfExpr x)) = 1
  | .const _ => rfl
  | .temp _ => rfl
  | .name _ => rfl
  | .mem x => by simp [itemsOfExpr, nodes, effect, pushes, pops, gain_itemsOfExpr x]
  | .binop _ l r => by
    simp [itemsOfExpr, nodes, effect, pushes, pops, gain_itemsOfExpr l, gain_itemsOfExpr r]
  | .unop _ x => by simp [itemsOfExpr, nodes, effect, pushes, pops, gain_itemsOfExpr x]
  | .call target args => by
    simp only [itemsOfExpr, nodes_append, gain_append, gain_itemsOfExpr target,
      gain_itemsOfExprs args, nodes, gain_cons, gain_nil, effect, pushes, pops]
    omega
  | .eseq s x => by
    simp [itemsOfExpr, nodes, effect, pushes, pops, gain_itemsOf s, gain_itemsOfExpr x]

lemma gain_itemsOfAll : (ss : List Stmt) → gain (nodes (itemsOfAll ss)) = 0
  | [] => rfl
  | s :: ss => by simp [itemsOfAll, gain_itemsOf s, gain_itemsOfAll ss]

/-- Each of several expressions leaves one operand. -/
lemma gain_itemsOfExprs : (xs : List Expr) → gain (nodes (itemsOfExprs xs)) = xs.length
  | [] => rfl
  | x :: xs => by
    simp only [itemsOfExprs, nodes_append, gain_append, gain_itemsOfExpr x,
      gain_itemsOfExprs xs, List.length_cons]
    omega

end

/-! ### Levels -/

lemma Placed.mem_nodes (h : Placed p a is) (hle : a ≤ b) (hlt : b < a + extent is)
    (hn : p.code[b]? = some n) : n ∈ nodes is := by
  induction is generalizing a with
  | nil => simp only [extent] at hlt; omega
  | cons i is ih =>
    cases i with
    | mark l => exact ih h.2 hle hlt
    | node m =>
      simp only [extent] at hlt
      by_cases hab : a = b
      · subst hab
        obtain rfl : m = n := Option.some.inj (h.1.symm.trans hn)
        exact List.mem_cons_self
      · exact List.mem_cons_of_mem _ (ih h.2 (by omega) (by omega))

/-- What all nodes before an address add to the height of the stack. -/
def Program.level (p : Program) (a : Nat) : Int :=
  gain (p.code.toList.take a)

lemma Program.level_succ {p : Program} (h : p.code[a]? = some n) :
    p.level (a + 1) = p.level a + effect n := by
  have ha : p.code.toList[a]? = some n := by simpa using h
  simp [Program.level, List.take_add_one, ha]

/-- The level after code is the level before it and what the code adds. -/
lemma Placed.level (h : Placed p a is) : p.level (a + extent is) = p.level a + gain (nodes is) := by
  induction is generalizing a with
  | nil => simp [extent, nodes]
  | cons i is ih =>
    cases i with
    | mark l => exact ih h.2
    | node n =>
      have hi := ih h.2
      rw [Program.level_succ h.1] at hi
      rw [show a + extent (.node n :: is) = a + 1 + extent is by simp only [extent]; omega, hi]
      simp only [nodes, gain_cons]
      omega

end TreeMachine.Linear
