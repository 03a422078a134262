import TreeMachine.Proofs.Confined
import TreeMachine.Proofs.Flattened
import TreeMachine.Proofs.Layout

/-!
# What lowering gives for confined code

On confined code the rules of lowering have more to say: what is called is a name that can be
called, operators are defined, and jumps go to labels that can be gone to.
-/

open List

namespace TreeMachine.Flat

open Lowering
open Structured

mutual

/-- An expression is lowered to code and a value; `ok` are the names that can be called, `lab`
the labels that can be gone to. -/
inductive LowersExpr (taken : Taken) (ok lab : String → Prop) :
    Structured.Expr → Nat → List Stmt → Expr → Nat → Prop where
  | const {v k} : LowersExpr taken ok lab (.const v) k [] (.const v) k
  | temp {r k} : r ∈ taken → LowersExpr taken ok lab (.temp r) k [] (.temp r) k
  | mem {e k pre x k'} : LowersExpr taken ok lab e k pre x k' →
    LowersExpr taken ok lab (.mem e) k pre (.mem x) k'
  | binop {op l r k pre x y k'} : op ∈ BinOp.defined →
    LowersAll taken ok lab [] [l, r] k pre [x, y] k' →
    LowersExpr taken ok lab (.binop op l r) k pre (.binop op x y) k'
  | unop {op e k pre x k'} : LowersExpr taken ok lab e k pre x k' →
    LowersExpr taken ok lab (.unop op e) k pre (.unop op x) k'
  | call {f args k dest k1 pre xs k'} : ok f → Fresh taken "lc" k dest k1 →
    LowersAll taken ok lab [] args k1 pre xs k' →
    LowersExpr taken ok lab (.call (.name f) args) k (pre ++ [.call 0 dest (.name f) xs])
      (.temp dest) k'
  | eseq {s e k code k1 pre x k'} : LowersStmt taken ok lab s k code k1 →
    LowersExpr taken ok lab e k1 pre x k' →
    LowersExpr taken ok lab (.eseq s e) k (code ++ pre) x k'

/-- Siblings are lowered after others, whose values are given: the code for them, and all
values. -/
inductive LowersAll (taken : Taken) (ok lab : String → Prop) :
    List Expr → List Structured.Expr → Nat → List Stmt → List Expr → Nat → Prop where
  | nil {xs k} : LowersAll taken ok lab xs [] k [] xs k
  | cons {xs e es k pre x k1 moves zs k2 code ys k'} :
    LowersExpr taken ok lab e k pre x k1 → Joins taken xs k1 pre moves zs k2 →
    LowersAll taken ok lab (zs ++ [x]) es k2 code ys k' →
    LowersAll taken ok lab xs (e :: es) k (moves ++ pre ++ code) ys k'

/-- A statement is lowered to code. -/
inductive LowersStmt (taken : Taken) (ok lab : String → Prop) :
    Structured.Stmt → Nat → List Stmt → Nat → Prop where
  | skip {k} : LowersStmt taken ok lab .skip k [] k
  | label {l k} : LowersStmt taken ok lab (.label l) k [.label l] k
  | seq {ss k codes k'} : LowersStmts taken ok lab ss k codes k' →
    LowersStmt taken ok lab (.seq ss) k codes.flatten k'
  | moveTemp {r e k pre x k'} : r ∈ taken → LowersExpr taken ok lab e k pre x k' →
    LowersStmt taken ok lab (.move (.temp r) e) k (pre ++ [.moveTemp r x]) k'
  | moveCall {r f args k pre xs k'} : r ∈ taken → ok f →
    LowersAll taken ok lab [] args k pre xs k' →
    LowersStmt taken ok lab (.move (.temp r) (.call (.name f) args)) k
      (pre ++ [.call 0 r (.name f) xs]) k'
  | moveMem {addr src k pre x y k'} : LowersAll taken ok lab [] [addr, src] k pre [x, y] k' →
    LowersStmt taken ok lab (.move (.mem addr) src) k (pre ++ [.moveMem x y]) k'
  | expCall {f args k pre xs k'} : ok f → LowersAll taken ok lab [] args k pre xs k' →
    LowersStmt taken ok lab (.exp (.call (.name f) args)) k (pre ++ [.call 0 "" (.name f) xs]) k'
  | drop {e k pre x k'} : (∀ callee args, e ≠ .call callee args) → isInert x = true →
    LowersExpr taken ok lab e k pre x k' → LowersStmt taken ok lab (.exp e) k pre k'
  | exp {e k pre x k'} : (∀ callee args, e ≠ .call callee args) → isInert x = false →
    LowersExpr taken ok lab e k pre x k' →
    LowersStmt taken ok lab (.exp e) k (pre ++ [.exp x]) k'
  | jump {l k} : lab l → LowersStmt taken ok lab (.jump (.name l)) k [.jump (.name l)] k
  | cjump {e yes no k pre x k'} : lab yes → lab no → LowersExpr taken ok lab e k pre x k' →
    LowersStmt taken ok lab (.cjump e yes no) k (pre ++ [.cjump x yes no]) k'
  | ret {es k pre xs k'} : LowersAll taken ok lab [] es k pre xs k' →
    LowersStmt taken ok lab (.ret es) k (pre ++ [.ret xs]) k'
  | call {returns f args k pre xs k'} : ok f → LowersAll taken ok lab [] args k pre xs k' →
    LowersStmt taken ok lab (.call returns (.name f) args) k
      (pre ++ [.call returns "" (.name f) xs]) k'

/-- Statements are lowered each to its code. -/
inductive LowersStmts (taken : Taken) (ok lab : String → Prop) :
    List Structured.Stmt → Nat → List (List Stmt) → Nat → Prop where
  | nil {k} : LowersStmts taken ok lab [] k [] k
  | cons {s ss k code k1 codes k'} : LowersStmt taken ok lab s k code k1 →
    LowersStmts taken ok lab ss k1 codes k' →
    LowersStmts taken ok lab (s :: ss) k (code :: codes) k'

end

/-! ### Siblings -/

section

variable {taken : Taken} {ok lab : String → Prop}

lemma LowersAll.of_nil (h : LowersAll taken ok lab xs [] k code ys k') :
    code = [] ∧ ys = xs ∧ k' = k := by
  cases h
  exact ⟨rfl, rfl, rfl⟩

lemma Joins.of_nil (h : Joins taken [] k pre moves zs k') : moves = [] ∧ zs = [] ∧ k' = k := by
  rcases h with _ | ⟨_, ⟨⟩⟩ <;> exact ⟨rfl, rfl, rfl⟩

lemma LowersAll.pair (h : LowersAll taken ok lab [] [e, e'] k code ys k') :
    ∃ pre x k1 pre' y k2 moves zs, LowersExpr taken ok lab e k pre x k1 ∧
      LowersExpr taken ok lab e' k1 pre' y k2 ∧ Joins taken [x] k2 pre' moves zs k' ∧
      code = pre ++ (moves ++ pre') ∧ ys = zs ++ [y] := by
  cases h with
  | cons he hj h =>
    obtain ⟨rfl, rfl, rfl⟩ := hj.of_nil
    cases h with
    | cons he' hj' h =>
      obtain ⟨rfl, rfl, rfl⟩ := h.of_nil
      exact ⟨_, _, _, _, _, _, _, _, he, he', hj', by simp, rfl⟩

lemma Saves.of_append (hf : ∀ x ∈ hs, isFixed taken x = true)
    (h : Saves taken (hs ++ xs) k moves zs k') :
    ∃ ys, zs = hs ++ ys ∧ Saves taken xs k moves ys k' := by
  induction hs generalizing zs with
  | nil => exact ⟨zs, rfl, h⟩
  | cons x hs ih =>
    obtain ⟨hx, hf⟩ := forall_mem_cons.1 hf
    cases h with
    | keep _ h =>
      obtain ⟨ys, rfl, hs⟩ := ih hf h
      exact ⟨ys, rfl, hs⟩
    | save hx' _ _ => rw [hx] at hx'; cases hx'

lemma Joins.of_append (hf : ∀ x ∈ hs, isFixed taken x = true)
    (h : Joins taken (hs ++ xs) k pre moves zs k') :
    ∃ ys, zs = hs ++ ys ∧ Joins taken xs k pre moves ys k' := by
  cases h with
  | plain => exact ⟨xs, rfl, .plain⟩
  | after hne h =>
    obtain ⟨ys, rfl, hys⟩ := h.of_append hf
    exact ⟨ys, rfl, .after hne hys⟩

lemma FlattensAll.of_name (h : FlattensAll taken [] (.name f :: args) k code ys k') :
    FlattensAll taken ([.name f] ++ []) args k code ys k' := by
  cases h with
  | cons he hj h =>
    cases he
    obtain ⟨rfl, rfl, rfl⟩ := hj.of_nil
    exact h

lemma lowersAll_two
    (hl : ∀ {k pre x k'}, FlattensExpr taken l k pre x k' → LowersExpr taken ok lab l k pre x k')
    (hr : ∀ {k pre x k'}, FlattensExpr taken r k pre x k' → LowersExpr taken ok lab r k pre x k')
    (h : FlattensAll taken [] [l, r] k code xs k') :
    LowersAll taken ok lab [] [l, r] k code xs k' := by
  cases h with
  | cons he hj h =>
    cases h with
    | cons he' hj' h =>
      cases h
      exact .cons (hl he) hj (.cons (hr he') hj' .nil)

end

/-! ### Lowering confined code goes by the rules -/

/-- The registers that code names are taken, and its labels can be gone to. -/
structure Fits (taken : Taken) (lab : String → Prop) (temps labels : List String) : Prop where
  temps : ∀ r ∈ temps, r ∈ taken
  labels : ∀ l ∈ labels, lab l

lemma fits_append :
    Fits taken lab (ts ++ ts') (ls ++ ls') ↔ Fits taken lab ts ls ∧ Fits taken lab ts' ls' := by
  refine ⟨fun ⟨ht, hl⟩ => ?_, fun ⟨⟨ht, hl⟩, ⟨ht', hl'⟩⟩ => ?_⟩
  · obtain ⟨ht, ht'⟩ := forall_mem_append.1 ht
    obtain ⟨hl, hl'⟩ := forall_mem_append.1 hl
    exact ⟨⟨ht, hl⟩, ⟨ht', hl'⟩⟩
  · exact ⟨forall_mem_append.2 ⟨ht, ht'⟩, forall_mem_append.2 ⟨hl, hl'⟩⟩

section

variable {taken : Taken} {ok lab : String → Prop} {esc : List String}

open Linear
open Structured.Stmt

lemma lab_of_labelsIn (h : l ∈ labelsIn ss) : l ∈ marks (itemsOfAll ss) := by
  induction ss with
  | nil => cases h
  | cons s ss ih =>
    rw [labelsIn_cons] at h
    rw [itemsOfAll, marks_append]
    rcases mem_append.1 h with h | h
    · obtain rfl : s = .label l := label?_eq_some.1 (by simpa using h)
      exact mem_append_left _ (by simp [itemsOf, marks])
    · exact mem_append_right _ (ih h)

lemma fits_args (h : Fits taken lab (Structured.Expr.call (.name f) args).temps
      (marks (itemsOfExpr (.call (.name f) args)))) :
    Fits taken lab (Structured.Expr.tempsAll args) (marks (itemsOfExprs args)) := by
  simpa [itemsOfExpr, marks, Structured.Expr.temps] using h

mutual

lemma lowersExpr_of_flattens (hesc : ∀ l ∈ esc, lab l) {k pre x k'} : (e : Structured.Expr) →
    e.Confined ok esc → Fits taken lab e.temps (marks (itemsOfExpr e)) →
    FlattensExpr taken e k pre x k' → LowersExpr taken ok lab e k pre x k'
  | .const v, _, _, h => by
    cases h
    exact .const
  | .temp r, _, hf, h => by
    cases h
    exact .temp (hf.temps r (by simp [Structured.Expr.temps]))
  | .mem e, hc, hf, h => by
    simp only [Structured.Expr.temps, itemsOfExpr, marks_append, marks, List.append_nil] at hf
    cases h with
    | mem h => exact .mem (lowersExpr_of_flattens hesc e hc hf h)
  | .binop op l r, hc, hf, h => by
    simp only [Structured.Expr.temps, itemsOfExpr, marks_append, marks, List.append_nil,
      fits_append] at hf
    cases h with
    | binop h =>
      exact .binop hc.1 (lowersAll_two (lowersExpr_of_flattens hesc l hc.2.1 hf.1)
        (lowersExpr_of_flattens hesc r hc.2.2 hf.2) h)
  | .unop op e, hc, hf, h => by
    simp only [Structured.Expr.temps, itemsOfExpr, marks_append, marks, List.append_nil] at hf
    cases h with
    | unop h => exact .unop (lowersExpr_of_flattens hesc e hc hf h)
  | .call (.name f) args, hc, hf, h => by
    cases h with
    | call hd h =>
      obtain ⟨ys, ⟨⟩, hl⟩ := lowersAll_of_flattens hesc args [.name f] (by simp [isFixed]) hc.2
        (fits_args hf) h.of_name
      exact .call hc.1 hd hl
  | .eseq s e, hc, hf, h => by
    simp only [Structured.Expr.temps, itemsOfExpr, marks_append, marks, List.append_nil,
      fits_append] at hf
    cases h with
    | eseq hs he =>
      exact .eseq (lowersStmt_of_flattens hesc s hc.1 (by simp) hf.1 hs)
        (lowersExpr_of_flattens hesc e hc.2 hf.2 he)

-- values that are fixed stay in front, whatever is saved
lemma lowersAll_of_flattens (hesc : ∀ l ∈ esc, lab l) :
    (es : List Structured.Expr) → ∀ (hs : List Expr) {xs k code zs k'},
      (∀ x ∈ hs, isFixed taken x = true) → Structured.Expr.ConfinedAll ok esc es →
      Fits taken lab (Structured.Expr.tempsAll es) (marks (itemsOfExprs es)) →
      FlattensAll taken (hs ++ xs) es k code zs k' →
      ∃ ys, zs = hs ++ ys ∧ LowersAll taken ok lab xs es k code ys k'
  | [], hs, xs, _, _, _, _, _, _, _, h => by
    cases h
    exact ⟨xs, rfl, .nil⟩
  | e :: es, hs, _, _, _, _, _, hfix, hc, hf, h => by
    simp only [Structured.Expr.tempsAll, itemsOfExprs, marks_append, fits_append] at hf
    cases h with
    | cons he hj h =>
      obtain ⟨zs, rfl, hjoin⟩ := hj.of_append hfix
      rw [append_assoc] at h
      obtain ⟨ys, rfl, hl⟩ := lowersAll_of_flattens hesc es hs hfix hc.2 hf.2 h
      exact ⟨ys, rfl, .cons (lowersExpr_of_flattens hesc e hc.1 hf.1 he) hjoin hl⟩

lemma lowersStmt_of_flattens (hesc : ∀ l ∈ esc, lab l) {scope k code k'} : (s : Structured.Stmt) →
    s.Confined ok esc scope → (∀ l ∈ scope, lab l) → Fits taken lab s.temps (marks (itemsOf s)) →
    FlattensStmt taken s k code k' → LowersStmt taken ok lab s k code k'
  | .skip, _, _, _, h => by
    cases h
    exact .skip
  | .label l, _, _, _, h => by
    cases h
    exact .label
  | .seq ss, hc, hscope, hf, h => by
    simp only [temps, itemsOf, marks_append, marks, List.append_nil] at hf
    cases h with
    | seq h =>
      obtain ⟨codes, rfl, hs⟩ := lowersStmts_of_flattens hesc ss hc.2
        (forall_mem_append.2 ⟨fun l hl => hf.labels l (lab_of_labelsIn hl), hscope⟩) hf h
      exact .seq hs
  | .move (.temp r) e, hc, _, hf, h => by
    simp only [temps, itemsOf, marks_append, marks, List.append_nil, fits_append] at hf
    obtain ⟨hfr, hfe⟩ := hf
    have hr := hfr.temps r (by simp [Structured.Expr.temps])
    cases h with
    | move h =>
      cases e with
      | call callee args =>
        cases callee with
        | name f =>
          cases h with
          | temp hne _ => exact absurd rfl (hne _ _)
          | call h =>
            obtain ⟨ys, ⟨⟩, hl⟩ := lowersAll_of_flattens hesc args [.name f] (by simp [isFixed])
              hc.2 (fits_args hfe) h.of_name
            exact .moveCall hr hc.1 hl
        | _ => exact hc.elim
      | _ =>
        cases h with
        | temp _ h => exact .moveTemp hr (lowersExpr_of_flattens hesc _ hc hfe h)
  | .move (.mem addr) src, hc, _, hf, h => by
    simp only [temps, Structured.Expr.temps, itemsOf, itemsOfExpr, marks_append,
      marks, List.append_nil, fits_append] at hf
    cases h with
    | move h =>
      cases h with
      | mem h =>
        exact .moveMem (lowersAll_two (lowersExpr_of_flattens hesc addr hc.1 hf.1)
          (lowersExpr_of_flattens hesc src hc.2 hf.2) h)
  | .exp e, hc, _, hf, h => by
    simp only [temps, itemsOf, marks_append, marks, List.append_nil] at hf
    cases e with
    | call callee args =>
      cases callee with
      | name f =>
        cases h with
        | expCall h =>
          obtain ⟨ys, ⟨⟩, hl⟩ := lowersAll_of_flattens hesc args [.name f] (by simp [isFixed])
            hc.2 (fits_args hf) h.of_name
          exact .expCall hc.1 hl
        | drop hne => exact absurd rfl (hne _ _)
        | exp hne => exact absurd rfl (hne _ _)
      | _ => exact hc.elim
    | _ =>
      cases h with
      | drop hne hi h => exact .drop hne hi (lowersExpr_of_flattens hesc _ hc hf h)
      | exp hne hi h => exact .exp hne hi (lowersExpr_of_flattens hesc _ hc hf h)
  | .jump (.name l), hc, hscope, _, h => by
    cases h with
    | jump h =>
      cases h
      exact .jump (hc.elim (hscope l) (hesc l))
  | .cjump e yes no, hc, hscope, hf, h => by
    simp only [temps, itemsOf, marks_append, marks, List.append_nil] at hf
    cases h with
    | cjump h =>
      exact .cjump (hc.2.1.elim (hscope yes) (hesc yes)) (hc.2.2.elim (hscope no) (hesc no))
        (lowersExpr_of_flattens hesc e hc.1 hf h)
  | .ret es, hc, _, hf, h => by
    simp only [temps, itemsOf, marks_append, marks, List.append_nil] at hf
    cases h with
    | ret h =>
      obtain ⟨ys, rfl, hl⟩ := lowersAll_of_flattens hesc es [] (by simp) hc hf h
      exact .ret hl
  | .call returns (.name f) args, hc, _, hf, h => by
    cases h with
    | call h =>
      obtain ⟨ys, ⟨⟩, hl⟩ := lowersAll_of_flattens hesc args [.name f] (by simp [isFixed]) hc.2
        (fits_args (by simpa [itemsOf, itemsOfExpr, marks] using! hf)) h.of_name
      exact .call hc.1 hl

lemma lowersStmts_of_flattens (hesc : ∀ l ∈ esc, lab l) {scope k code k'} :
    (ss : List Structured.Stmt) → ConfinedAll ok esc scope ss →
    (∀ l ∈ scope, lab l) → Fits taken lab (tempsAll ss) (marks (itemsOfAll ss)) →
    FlattensStmts taken ss k code k' →
    ∃ codes, code = codes.flatten ∧ LowersStmts taken ok lab ss k codes k'
  | [], _, _, _, h => by
    cases h
    exact ⟨[], rfl, .nil⟩
  | s :: ss, hc, hscope, hf, h => by
    simp only [tempsAll, itemsOfAll, marks_append, fits_append] at hf
    cases h with
    | cons hs h =>
      obtain ⟨codes, rfl, hl⟩ := lowersStmts_of_flattens hesc ss hc.2 hscope hf.2 h
      exact ⟨_ :: codes, rfl, .cons (lowersStmt_of_flattens hesc s hc.1 hscope hf.1 hs) hl⟩

end

end

end TreeMachine.Flat
