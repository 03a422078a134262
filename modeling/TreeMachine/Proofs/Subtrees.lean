import TreeMachine.Proofs.Balance

/-!
# Parts of code and their addresses

The code of a part of a statement or an expression stands inside the code of the whole. So
whatever is known of code that stands somewhere is known of each of its parts.
-/

open List

namespace TreeMachine.Structured

lemma Node.sizeOf_lt_of_mem_children {n c : Node} (h : c ∈ n.children) :
    sizeOf c < sizeOf n := by
  have hstmt : ∀ {ss : List Stmt} {c : Node}, c ∈ ss.map Node.stmt → sizeOf c < 1 + sizeOf ss := by
    intro ss c hc
    obtain ⟨s, hs, rfl⟩ := mem_map.1 hc
    have := sizeOf_lt_of_mem hs
    simp only [Node.stmt.sizeOf_spec]
    omega
  have hexpr : ∀ {xs : List Expr} {c : Node}, c ∈ xs.map Node.expr → sizeOf c < 1 + sizeOf xs := by
    intro xs c hc
    obtain ⟨x, hx, rfl⟩ := mem_map.1 hc
    have := sizeOf_lt_of_mem hx
    simp only [Node.expr.sizeOf_spec]
    omega
  match n with
  | .stmt (.seq ss) =>
    have := hstmt h
    simp only [Node.stmt.sizeOf_spec, Stmt.seq.sizeOf_spec]
    omega
  | .stmt (.ret xs) =>
    have := hexpr h
    simp only [Node.stmt.sizeOf_spec, Stmt.ret.sizeOf_spec]
    omega
  | .stmt (.call _ x xs) =>
    rcases mem_cons.1 h with rfl | h
    · simp
      omega
    · have := hexpr h
      simp only [Node.stmt.sizeOf_spec, Stmt.call.sizeOf_spec]
      omega
  | .expr (.call x xs) =>
    rcases mem_cons.1 h with rfl | h
    · simp
      omega
    · have := hexpr h
      simp only [Node.expr.sizeOf_spec, Expr.call.sizeOf_spec]
      omega
  | .stmt (.move _ _) | .expr (.binop _ _ _) | .expr (.eseq _ _) =>
    simp only [Node.children, mem_cons, not_mem_nil, or_false] at h
    rcases h with rfl | rfl <;> simp
    omega
  | .stmt (.cjump _ _ _) | .expr (.unop _ _) =>
    obtain rfl := mem_singleton.1 h
    simp only [Node.stmt.sizeOf_spec, Node.expr.sizeOf_spec, Stmt.cjump.sizeOf_spec,
      Expr.unop.sizeOf_spec]
    omega
  | .stmt (.exp _) | .stmt (.jump _) | .expr (.mem _) =>
    obtain rfl := mem_singleton.1 h
    simp
  | .stmt (.label _) | .stmt .skip | .expr (.const _) | .expr (.temp _) | .expr (.name _) =>
    simp [Node.children] at h

lemma Node.induction {P : Node → Prop} (h : ∀ n, (∀ c ∈ n.children, P c) → P n) (n : Node) : P n :=
  h n fun c hc =>
    have := Node.sizeOf_lt_of_mem_children hc
    Node.induction h c
termination_by sizeOf n

end TreeMachine.Structured

namespace TreeMachine.Linear

open Structured

def itemsOfNode : Node → List Item
  | .stmt s => itemsOf s
  | .expr x => itemsOfExpr x

def ownItem : Node → List Item
  | .stmt .skip => []
  | .stmt (.label l) => [.mark l]
  | n => [.node n]

/-- What a node adds to the code of its parts is the node, except for labels and empty
statements. -/
lemma ownItem_cases (n : Node) :
    n = .stmt .skip ∨ (∃ l, n = .stmt (.label l)) ∨ ownItem n = [.node n] := by
  unfold ownItem
  split
  · exact .inl rfl
  · next l => exact .inr (.inl ⟨l, rfl⟩)
  · exact .inr (.inr rfl)

lemma itemsOfAll_eq_flatMap (ss : List Stmt) :
    itemsOfAll ss = (ss.map Node.stmt).flatMap itemsOfNode := by
  induction ss with
  | nil => rfl
  | cons s ss ih => rw [itemsOfAll, ih]; rfl

lemma itemsOfExprs_eq_flatMap (xs : List Expr) :
    itemsOfExprs xs = (xs.map Node.expr).flatMap itemsOfNode := by
  induction xs with
  | nil => rfl
  | cons x xs ih => rw [itemsOfExprs, ih]; rfl

lemma itemsOfNode_eq (n : Node) : itemsOfNode n = n.children.flatMap itemsOfNode ++ ownItem n := by
  cases n with
  | stmt s =>
    cases s <;> simp [itemsOfNode, Node.children, ownItem, itemsOf, itemsOfAll_eq_flatMap,
      itemsOfExprs_eq_flatMap]
  | expr x =>
    cases x <;> simp [itemsOfNode, Node.children, ownItem, itemsOfExpr, itemsOfExprs_eq_flatMap]

lemma gain_itemsOfNode (n : Node) : gain (nodes (itemsOfNode n)) = leaves n := by
  cases n with
  | stmt s => exact gain_itemsOf s
  | expr x => exact gain_itemsOfExpr x

/-- The node `v`, with code from `b` on, is a part of the node `t`, with code from `a` on. -/
inductive Occurs : Node → Nat → Node → Nat → Prop where
  | self (t : Node) (a : Nat) : Occurs t a t a
  | part {t u v : Node} {a b : Nat} (before after : List Node)
    (children : t.children = before ++ u :: after)
    (inside : Occurs u (a + extent (before.flatMap itemsOfNode)) v b) : Occurs t a v b

lemma itemsOfNode_part {t u : Node} {before after : List Node}
    (h : t.children = before ++ u :: after) :
    itemsOfNode t = before.flatMap itemsOfNode ++
      (itemsOfNode u ++ (after.flatMap itemsOfNode ++ ownItem t)) := by
  rw [itemsOfNode_eq t, h]
  simp

lemma Occurs.placed (h : Occurs t a v b) (hp : Placed p a (itemsOfNode t)) :
    Placed p b (itemsOfNode v) ∧ a ≤ b ∧
      b + extent (itemsOfNode v) ≤ a + extent (itemsOfNode t) := by
  induction h with
  | self t a => exact ⟨hp, le_rfl, le_rfl⟩
  | @part t u v a b before after hchildren _ ih =>
    have hitems := itemsOfNode_part hchildren
    rw [hitems] at hp
    obtain ⟨hplaced, hle, hend⟩ := ih hp.append.2.append.1
    refine ⟨hplaced, by omega, ?_⟩
    rw [hitems, extent_append, extent_append]
    omega

end TreeMachine.Linear
