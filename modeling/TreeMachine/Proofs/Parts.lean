import TreeMachine.Proofs.Lowered
import TreeMachine.Proofs.Subtrees

/-!
# Parts of confined and of lowered code

The parts of confined code are confined, wherever they stand. And lowering leaves whole
statements and sequenced expressions in one piece: what such a part is lowered to stands in
the code that the whole is lowered to.
-/

open List

namespace TreeMachine.Structured

open Linear

lemma Occurs.eq_or_child (h : Occurs t a v b) :
    v = t ∨ ∃ u ∈ t.children, ∃ a', Occurs u a' v b := by
  cases h with
  | self => exact .inl rfl
  | @part _ u _ _ _ before after hchildren hinside =>
    exact .inr ⟨u, by rw [hchildren]; simp, _, hinside⟩

/-- A node of confined code, where jumps stay among known labels. Names may stand where a
target is expected. -/
def Node.Confined (ok : String → Prop) (esc : List String) (lab : String → Prop) : Node → Prop
  | .stmt s => ∃ scope, (∀ l ∈ scope, lab l) ∧ s.Confined ok esc scope
  | .expr (.name _) => True
  | .expr x => x.Confined ok esc

section

variable {ok lab : String → Prop} {esc : List String}

lemma marks_child (hc : c ∈ n.children) (h : l ∈ marks (itemsOfNode c)) :
    l ∈ marks (itemsOfNode n) := by
  obtain ⟨before, after, hsplit⟩ := append_of_mem hc
  rw [itemsOfNode_eq n, hsplit]
  simp [h]

lemma Expr.Confined.node (h : x.Confined ok esc) : (Node.expr x).Confined ok esc lab := by
  cases x with
  | name l => trivial
  | _ => exact h

lemma Expr.ConfinedAll.node (h : Expr.ConfinedAll ok esc xs) (hc : c ∈ xs.map Node.expr) :
    c.Confined ok esc lab := by
  obtain ⟨x, hx, rfl⟩ := mem_map.1 hc
  exact (Expr.confinedAll_iff.1 h x hx).node

lemma Node.Confined.child (h : n.Confined ok esc lab) (hlab : ∀ l ∈ marks (itemsOfNode n), lab l)
    (hc : c ∈ n.children) : c.Confined ok esc lab := by
  cases n with
  | stmt s =>
    obtain ⟨scope, hscope, h⟩ := h
    cases s with
    | skip | label l => simp [Node.children] at hc
    | seq ss =>
      obtain ⟨st, hst, rfl⟩ := mem_map.1 hc
      refine ⟨_, forall_mem_append.2 ⟨fun l hl => hlab l ?_, hscope⟩,
        Stmt.confinedAll_iff.1 h.2 st hst⟩
      simpa [itemsOfNode, itemsOf, marks] using Flat.lab_of_labelsIn hl
    | move target src =>
      simp only [Node.children, mem_cons, not_mem_nil, or_false] at hc
      rcases hc with rfl | rfl
      · cases target with
        | temp r => trivial
        | mem addr => exact h.1
        | _ => exact h.elim
      · cases target with
        | temp r => exact Expr.Confined.node h
        | mem addr => exact h.2.node
        | _ => exact h.elim
    | exp x =>
      obtain rfl := mem_singleton.1 hc
      exact Expr.Confined.node h
    | jump x =>
      obtain rfl := mem_singleton.1 hc
      cases x with
      | name l => trivial
      | _ => exact h.elim
    | cjump x yes no =>
      obtain rfl := mem_singleton.1 hc
      exact h.1.node
    | ret xs => exact Expr.ConfinedAll.node h hc
    | call n f xs =>
      cases f with
      | name f =>
        rcases mem_cons.1 hc with rfl | hc
        · trivial
        · exact h.2.node hc
      | _ => exact h.elim
  | expr x =>
    cases x with
    | const v | temp r | name l => simp [Node.children] at hc
    | mem x =>
      obtain rfl := mem_singleton.1 hc
      exact Expr.Confined.node h
    | unop op x =>
      obtain rfl := mem_singleton.1 hc
      exact Expr.Confined.node h
    | binop op x y =>
      simp only [Node.children, mem_cons, not_mem_nil, or_false] at hc
      rcases hc with rfl | rfl
      · exact h.2.1.node
      · exact h.2.2.node
    | call f xs =>
      cases f with
      | name f =>
        rcases mem_cons.1 hc with rfl | hc
        · trivial
        · exact h.2.node hc
      | _ => exact h.elim
    | eseq s x =>
      simp only [Node.children, mem_cons, not_mem_nil, or_false] at hc
      rcases hc with rfl | rfl
      · exact ⟨[], by simp, h.1⟩
      · exact h.2.node

/-- A part of confined code is confined. -/
lemma Occurs.confined (h : Occurs t a v b) (ht : t.Confined ok esc lab)
    (hlab : ∀ l ∈ marks (itemsOfNode t), lab l) : v.Confined ok esc lab := by
  induction h with
  | self => exact ht
  | part before after hchildren _ ih =>
    have hc := hchildren ▸ mem_append_right before mem_cons_self
    exact ih (ht.child hlab hc) fun l hl => hlab l (marks_child hc hl)

lemma Function.Confined.part {f : Function} (hf : f.Confined ok) {v : Node}
    (h : Occurs (.stmt f.body) a v b) (hv : v ≠ .stmt f.body) :
    ∃ esc, (∀ l ∈ esc, l = trapOf f.name ∧ l ∈ marks (itemsOf f.body)) ∧
      v.Confined ok esc (· ∈ marks (itemsOf f.body)) := by
  obtain ⟨ss, esc, ts, hbody, hss, hts⟩ := hf
  have hesc : ∀ l ∈ esc, l = trapOf f.name ∧ l ∈ marks (itemsOf f.body) := by
    rcases hts with ⟨rfl, -⟩ | ⟨g, -, rfl, rfl, -⟩
    · simp
    · rw [hbody]
      simp [itemsOf, itemsOfAll_append, trapEnd, itemsOfAll, marks]
  refine ⟨esc, hesc, ?_⟩
  obtain ⟨u, hu, a', hocc⟩ := (Occurs.eq_or_child h).resolve_left hv
  refine Occurs.confined hocc ?_ fun l hl => marks_child hu hl
  rw [hbody] at hu
  obtain ⟨st, hst, rfl⟩ := mem_map.1 hu
  rcases mem_append.1 hst with hst | hst
  · refine ⟨labelsIn ss, fun l hl => ?_, Stmt.confinedAll_iff.1 hss st hst⟩
    rw [hbody]
    have := Flat.lab_of_labelsIn hl
    simp [itemsOf, itemsOfAll_append, this]
  · rcases hts with ⟨-, rfl⟩ | ⟨g, hg, -, rfl, -⟩
    · cases hst
    · simp only [trapEnd, mem_cons, not_mem_nil, or_false] at hst
      rcases hst with rfl | rfl
      · exact ⟨[], by simp, trivial⟩
      · exact ⟨[], by simp, hg, trivial⟩

end

end TreeMachine.Structured

namespace TreeMachine.Flat

open Structured
open Structured.Occurs
open Linear

/-- The parts that lowering leaves in one piece. -/
def Whole : Node → Prop
  | .stmt _ => True
  | .expr (.eseq _ _) => True
  | .expr _ => False

section

variable {taken : Taken} {ok lab : String → Prop}

variable (taken ok lab) in
/-- What a part is lowered to is a stretch of the code. -/
def Contains (code : List Stmt) : Node → Prop
  | .stmt s => ∃ k mid k', mid <:+: code ∧ LowersStmt taken ok lab s k mid k'
  | .expr e => ∃ k mid x k', mid <:+: code ∧ LowersExpr taken ok lab e k mid x k'

lemma Contains.imp (h : Contains taken ok lab code v) (hle : code <:+: code') :
    Contains taken ok lab code' v := by
  cases v with
  | stmt s =>
    obtain ⟨k, mid, k', hmid, hl⟩ := h
    exact ⟨k, mid, k', hmid.trans hle, hl⟩
  | expr e =>
    obtain ⟨k, mid, x, k', hmid, hl⟩ := h
    exact ⟨k, mid, x, k', hmid.trans hle, hl⟩

lemma Contains.left (h : Contains taken ok lab code v) (code' : List Stmt) :
    Contains taken ok lab (code ++ code') v :=
  h.imp (infix_append_left ..)

lemma Contains.right (h : Contains taken ok lab code' v) (code : List Stmt) :
    Contains taken ok lab (code ++ code') v :=
  h.imp (infix_append_right ..)

variable {v : Node} {a b : Nat}

lemma not_whole_of_leaf (hx : (Node.expr x).children = []) (h : Occurs (.expr x) a v b) :
    ¬Whole v := by
  rcases eq_or_child h with rfl | ⟨u, hu, -⟩
  · cases x with
    | eseq s y => cases hx
    | _ => exact id
  · rw [hx] at hu
    cases hu

lemma occurs_arg (h : Occurs (.expr (.call (.name f) args)) a v b) (hv : Whole v) :
    ∃ e ∈ args, ∃ a', Occurs (.expr e) a' v b := by
  rcases eq_or_child h with rfl | ⟨u, hu, a', h⟩
  · exact hv.elim
  · rcases mem_cons.1 hu with rfl | hu
    · exact absurd hv (not_whole_of_leaf rfl h)
    · obtain ⟨e, he, rfl⟩ := mem_map.1 hu
      exact ⟨e, he, a', h⟩

lemma contains_of_child (hl : LowersStmt taken ok lab s k code k')
    (hchild : ∀ {u a}, u ∈ (Node.stmt s).children → Occurs u a v b → Contains taken ok lab code v)
    (h : Occurs (.stmt s) a v b) : Contains taken ok lab code v := by
  rcases eq_or_child h with rfl | ⟨u, hu, a', h⟩
  · exact ⟨_, _, _, infix_refl _, hl⟩
  · exact hchild hu h

mutual

lemma contains_expr {e k code x k'} : LowersExpr taken ok lab e k code x k' →
    ∀ {a}, Occurs (.expr e) a v b → Whole v → Contains taken ok lab code v
  | .const, _, h, hv => absurd hv (not_whole_of_leaf rfl h)
  | .temp _, _, h, hv => absurd hv (not_whole_of_leaf rfl h)
  | .mem hl, _, h, hv => by
    rcases eq_or_child h with rfl | ⟨u, hu, a', h⟩
    · exact hv.elim
    · obtain rfl := mem_singleton.1 hu
      exact contains_expr hl h hv
  | .binop _ hl, _, h, hv => by
    rcases eq_or_child h with rfl | ⟨u, hu, a', h⟩
    · exact hv.elim
    · simp only [Node.children, mem_cons, not_mem_nil, or_false] at hu
      rcases hu with rfl | rfl
      · exact contains_all hl (by simp) h hv
      · exact contains_all hl (by simp) h hv
  | .unop hl, _, h, hv => by
    rcases eq_or_child h with rfl | ⟨u, hu, a', h⟩
    · exact hv.elim
    · obtain rfl := mem_singleton.1 hu
      exact contains_expr hl h hv
  | .call _ _ hl, _, h, hv => by
    obtain ⟨e, he, a', h⟩ := occurs_arg h hv
    exact (contains_all hl he h hv).left _
  | .eseq hs hl, _, h, hv => by
    rcases eq_or_child h with rfl | ⟨u, hu, a', h⟩
    · exact ⟨_, _, _, _, infix_refl _, .eseq hs hl⟩
    · simp only [Node.children, mem_cons, not_mem_nil, or_false] at hu
      rcases hu with rfl | rfl
      · exact (contains_of_child hs (fun hu h => contains_child hs hu h hv) h).left _
      · exact (contains_expr hl h hv).right _

lemma contains_all {xs es k code ys k'} : LowersAll taken ok lab xs es k code ys k' →
    ∀ {e}, e ∈ es → ∀ {a}, Occurs (.expr e) a v b → Whole v → Contains taken ok lab code v
  | .nil, _, he, _, _, _ => by cases he
  | .cons hl _ hls, _, he, _, h, hv => by
    rcases mem_cons.1 he with heq | he
    · rw [heq] at h
      exact ((contains_expr hl h hv).right _).left _
    · exact (contains_all hls he h hv).right _

lemma contains_child {s k code k'} : LowersStmt taken ok lab s k code k' →
    ∀ {u a}, u ∈ (Node.stmt s).children → Occurs u a v b → Whole v → Contains taken ok lab code v
  | .skip, _, _, hu, _, _ => by cases hu
  | .label, _, _, hu, _, _ => by cases hu
  | .seq hls, _, _, hu, h, hv => by
    obtain ⟨st, hst, rfl⟩ := mem_map.1 hu
    exact contains_stmts hls hst h hv
  | .moveTemp _ hl, _, _, hu, h, hv => by
    simp only [Node.children, mem_cons, not_mem_nil, or_false] at hu
    rcases hu with rfl | rfl
    · exact absurd hv (not_whole_of_leaf rfl h)
    · exact (contains_expr hl h hv).left _
  | .moveCall _ _ hl, _, _, hu, h, hv => by
    simp only [Node.children, mem_cons, not_mem_nil, or_false] at hu
    rcases hu with rfl | rfl
    · exact absurd hv (not_whole_of_leaf rfl h)
    · obtain ⟨e, he, a', h⟩ := occurs_arg h hv
      exact (contains_all hl he h hv).left _
  | .moveMem hl, _, _, hu, h, hv => by
    simp only [Node.children, mem_cons, not_mem_nil, or_false] at hu
    rcases hu with rfl | rfl
    · rcases eq_or_child h with rfl | ⟨u, hu, a', h⟩
      · exact hv.elim
      · obtain rfl := mem_singleton.1 hu
        exact (contains_all hl (by simp) h hv).left _
    · exact (contains_all hl (by simp) h hv).left _
  | .expCall _ hl, _, _, hu, h, hv => by
    obtain rfl := mem_singleton.1 hu
    obtain ⟨e, he, a', h⟩ := occurs_arg h hv
    exact (contains_all hl he h hv).left _
  | .drop _ _ hl, _, _, hu, h, hv => by
    obtain rfl := mem_singleton.1 hu
    exact contains_expr hl h hv
  | .exp _ _ hl, _, _, hu, h, hv => by
    obtain rfl := mem_singleton.1 hu
    exact (contains_expr hl h hv).left _
  | .jump _, _, _, hu, h, hv => by
    obtain rfl := mem_singleton.1 hu
    exact absurd hv (not_whole_of_leaf rfl h)
  | .cjump _ _ hl, _, _, hu, h, hv => by
    obtain rfl := mem_singleton.1 hu
    exact (contains_expr hl h hv).left _
  | .ret hl, _, _, hu, h, hv => by
    obtain ⟨e, he, rfl⟩ := mem_map.1 hu
    exact (contains_all hl he h hv).left _
  | .call _ hl, _, _, hu, h, hv => by
    rcases mem_cons.1 hu with rfl | hu
    · exact absurd hv (not_whole_of_leaf rfl h)
    · obtain ⟨e, he, rfl⟩ := mem_map.1 hu
      exact (contains_all hl he h hv).left _

/-- What a part of a list of statements is lowered to is a stretch of what the list is lowered
to. -/
lemma contains_stmts {ss k codes k'} : LowersStmts taken ok lab ss k codes k' → ∀ {s}, s ∈ ss →
    ∀ {a}, Occurs (.stmt s) a v b → Whole v → Contains taken ok lab codes.flatten v
  | .nil, _, hs, _, _, _ => by cases hs
  | .cons hl hls, _, hs, _, h, hv => by
    rw [flatten_cons]
    rcases mem_cons.1 hs with heq | hs
    · rw [heq] at h
      exact (contains_of_child hl (fun hu h => contains_child hl hu h hv) h).left _
    · exact (contains_stmts hls hs h hv).right _

end

end

end TreeMachine.Flat
