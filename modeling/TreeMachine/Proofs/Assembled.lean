import TreeMachine.Linear.Basic
import TreeMachine.Proofs.Flattened

/-!
# How lowered code is put together

The rules of lowering follow the forms of structured code. For facts about flat code itself fewer
steps are enough: the code for a list of items is the code for its parts, with values saved in
between, and a statement at the end. Such a fact needs one induction over these steps.
-/

open List

namespace TreeMachine.Structured

/-- The register that a move to an expression assigns, which may stand below statements. -/
def Expr.register? : Expr → Option String
  | .temp reg => some reg
  | .eseq _ x => x.register?
  | _ => none

def Node.isMove : Node → Bool
  | .stmt (.move _ _) => true
  | _ => false

end TreeMachine.Structured

namespace TreeMachine.Flat

open Linear Lowering

def Expr.operands : Expr → List Expr
  | .mem x | .unop _ x => [x]
  | .binop _ x y => [x, y]
  | _ => []

def Stmt.operands : Stmt → List Expr
  | .moveTemp _ x | .exp x | .jump x | .cjump x _ _ => [x]
  | .moveMem x y => [x, y]
  | .label _ => []
  | .ret xs => xs
  | .call _ _ f xs => f :: xs

/-- The last statement of the code for a statement. A register that it assigns is among given ones.
-/
inductive Ends (T : List String) : Structured.Stmt → Stmt → Prop where
  | exp {e x} : isInert x = false → Ends T (.exp e) (.exp x)
  | jump {e x} : Ends T (.jump e) (.jump x)
  | cjump {e x yes no} : Ends T (.cjump e yes no) (.cjump x yes no)
  | ret {es xs} : Ends T (.ret es) (.ret xs)
  | call {n e es f xs} : Ends T (.call n e es) (.call n "" f xs)
  | expCall {e es f xs} : Ends T (.exp (.call e es)) (.call 0 "" f xs)
  | moveMem {target e x y} : target.register? = none → Ends T (.move target e) (.moveMem x y)
  | moveTemp {target e r x} : target.register? = some r → r ∈ T →
    (∀ callee args, e ≠ .call callee args) → Ends T (.move target e) (.moveTemp r x)
  | moveCall {target e es r f xs} : target.register? = some r → r ∈ T →
    Ends T (.move target (.call e es)) (.call 0 r f xs)

/-- How the code for items is put together, and values for the code after it. -/
inductive Assembles (taken : Taken) (T : List String) :
    List Item → Nat → List Stmt → List Expr → Nat → Prop where
  | nil {k} : Assembles taken T [] k [] [] k
  | label {l k} : Assembles taken T [.mark l] k [.label l] [] k
  | const {v k} : Assembles taken T [.node (.expr (.const v))] k [] [.const v] k
  | name {l k} : Assembles taken T [.node (.expr (.name l))] k [] [.name l] k
  | temp {r k} : r ∈ T → Assembles taken T [.node (.expr (.temp r))] k [] [.temp r] k
  | node (is) {n js k code xs k'} : n.isMove = false → Assembles taken T (is ++ js) k code xs k' →
    Assembles taken T (is ++ .node n :: js) k code xs k'
  | value (y) {is k code k'} : y.operands ≠ [] → Assembles taken T is k code y.operands k' →
    Assembles taken T is k code [y] k'
  | drop {is k code xs k'} : Assembles taken T is k code xs k' → Assembles taken T is k code [] k'
  | append {is k code k1 js code' xs k'} : Assembles taken T is k code [] k1 →
    Assembles taken T js k1 code' xs k' → Assembles taken T (is ++ js) k (code ++ code') xs k'
  | join {is k code xs k1 js pre x k2 moves zs k'} : Assembles taken T is k code xs k1 →
    Assembles taken T js k1 pre [x] k2 → Joins taken xs k2 pre moves zs k' →
    Assembles taken T (is ++ js) k (code ++ (moves ++ pre)) (zs ++ [x]) k'
  | result {dest k k1 is code f xs k'} : Fresh taken "lc" k dest k1 →
    Assembles taken T is k1 code (f :: xs) k' →
    Assembles taken T is k (code ++ [.call 0 dest f xs]) [.temp dest] k'
  | stmt (s) {t is k code k'} : Ends T t s → Assembles taken T is k code s.operands k' →
    Assembles taken T (is ++ [.node (.stmt t)]) k (code ++ [s]) [] k'

section

open Structured.Expr

variable {taken : Taken} {T : List String}

lemma Assembles.snoc (h : Assembles taken T is k code xs k') {n : Structured.Node}
    (hn : n.isMove = false) : Assembles taken T (is ++ [.node n]) k code xs k' :=
  .node is hn (by rwa [List.append_nil])

mutual

lemma assembles_expr {e k pre x k'} : FlattensExpr taken e k pre x k' → (∀ r ∈ e.temps, r ∈ T) →
    Assembles taken T (itemsOfExpr e) k pre [x] k'
  | .const, _ => .const
  | .temp, ht => .temp (ht _ (mem_singleton_self _))
  | .name, _ => .name
  | .mem h, ht => .value (.mem _) nofun ((assembles_expr h ht).snoc rfl)
  | .unop h, ht => .value (.unop _ _) nofun ((assembles_expr h ht).snoc rfl)
  | .binop h, ht => by
    have hall := assembles_all h (by simpa [temps, tempsAll] using ht) .nil
    exact .value (.binop _ _ _) nofun
      (.snoc (by simpa [itemsOfExprs, Expr.operands] using hall) rfl)
  | .call hd h, ht => .result hd ((assembles_all h ht .nil).snoc rfl)
  | .eseq hs h, ht => by
    obtain ⟨hts, hte⟩ := forall_mem_append.1 ht
    exact ((assembles_stmt hs hts).append (assembles_expr h hte)).snoc rfl

lemma assembles_all {xs es k code ys k'} : FlattensAll taken xs es k code ys k' →
    (∀ r ∈ tempsAll es, r ∈ T) → ∀ {is j pre}, Assembles taken T is j pre xs k →
    Assembles taken T (is ++ itemsOfExprs es) j (pre ++ code) ys k'
  | .nil, _, _, _, _, hxs => by simpa [itemsOfExprs] using hxs
  | .cons he hj h, ht, _, _, _, hxs => by
    obtain ⟨hte, htes⟩ := forall_mem_append.1 ht
    simpa [itemsOfExprs] using assembles_all h htes (hxs.join (assembles_expr he hte) hj)

lemma assembles_move {target e k code k'} : FlattensMove taken target e k code k' →
    (∀ r ∈ target.temps, r ∈ T) → (∀ r ∈ e.temps, r ∈ T) →
    ∀ {target'}, target'.register? = target.register? → Assembles taken T
      (itemsOfExpr target ++ itemsOfExpr e ++ [.node (.stmt (.move target' e))]) k code [] k'
  | .temp hne h, htt, hte, _, hr =>
    .stmt (.moveTemp _ _) (.moveTemp hr (htt _ (mem_singleton_self _)) hne)
      (.node [] rfl (assembles_expr h hte))
  | .call h, htt, hte, _, hr =>
    .stmt (.call _ _ _ _) (.moveCall hr (htt _ (mem_singleton_self _)))
      (.node [] rfl ((assembles_all h hte .nil).snoc rfl))
  | .mem h, htt, hte, _, hr => by
    have hall := assembles_all h (by
      simpa [temps, tempsAll] using forall_mem_append.2 ⟨htt, hte⟩) .nil
    refine .stmt (.moveMem _ _) (.moveMem hr) ?_
    rw [itemsOfExpr, append_assoc]
    exact .node _ rfl (by simpa [itemsOfExprs, Stmt.operands] using hall)
  | .eseq hs h, htt, hte, _, hr => by
    obtain ⟨hts, htt⟩ := forall_mem_append.1 htt
    have hmove := (assembles_stmt hs hts).append (assembles_move h htt hte hr)
    simp only [itemsOfExpr, append_assoc] at hmove ⊢
    rw [← append_assoc]
    exact .node _ rfl (by rwa [append_assoc])

/-- The rules put the code of a statement together. -/
lemma assembles_stmt {s k code k'} : FlattensStmt taken s k code k' → (∀ r ∈ s.temps, r ∈ T) →
    Assembles taken T (itemsOf s) k code [] k'
  | .skip, _ => .nil
  | .label, _ => .label
  | .seq h, ht => (assembles_stmts h ht).snoc rfl
  | .move h, ht => by
    obtain ⟨htt, hte⟩ := forall_mem_append.1 ht
    exact assembles_move h htt hte rfl
  | .expCall h, ht => .stmt (.call _ _ _ _) .expCall ((assembles_all h ht .nil).snoc rfl)
  | .drop _ _ h, ht => ((assembles_expr h ht).snoc rfl).drop
  | .exp _ hi h, ht => .stmt (.exp _) (.exp hi) (assembles_expr h ht)
  | .jump h, ht => .stmt (.jump _) .jump (assembles_expr h ht)
  | .cjump h, ht => .stmt (.cjump _ _ _) .cjump (assembles_expr h ht)
  | .ret h, ht => .stmt (.ret _) .ret (assembles_all h ht .nil)
  | .call h, ht => .stmt (.call _ _ _ _) .call (assembles_all h ht .nil)

lemma assembles_stmts {ss k code k'} : FlattensStmts taken ss k code k' →
    (∀ r ∈ Structured.Stmt.tempsAll ss, r ∈ T) → Assembles taken T (itemsOfAll ss) k code [] k'
  | .nil, _ => .nil
  | .cons h hs, ht => by
    obtain ⟨htS, htSs⟩ := forall_mem_append.1 ht
    exact (assembles_stmt h htS).append (assembles_stmts hs htSs)

end

end

end TreeMachine.Flat
