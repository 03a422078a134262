import TreeMachine.Flat.Lower
import TreeMachine.Proofs.Inversion
import TreeMachine.Proofs.Names

/-!
# What lowering gives, whatever the code

As compiling, lowering is a computation with a counter, and its successes are described by rules:
what the flat code of a form is, given that of its parts. The rules say in one place when values of
earlier siblings are saved. Nothing is assumed of the code: targets may be computed, operators may
be undefined, and a move may have its target below statements. Facts about flat code can be read
off the rules without running anything.
-/

namespace TreeMachine.Flat

open Lowering
open TreeMachine.StateT (pure_eq_ok bind_pure_eq_ok ok_of_bind)

/-! ### Fresh registers -/

/-- A register that lowering has made: it is not one of the unit's, and has the number that
the counter got to. -/
structure Fresh (taken : Taken) (hint : String) (k : Nat) (reg : String) (k' : Nat) : Prop where
  eq : reg = numbered hint k'
  lt : k < k'
  free : reg ∉ taken

lemma fresh_findFree (names : List String) (hlen : names.length ≤ fuel)
    (hin : ∀ j, n < j → numbered hint j ∈ taken → numbered hint j ∈ names) :
    Fresh taken hint n (findFree taken hint fuel n).1 (findFree taken hint fuel n).2 := by
  induction fuel generalizing n names with
  | zero =>
    obtain rfl : names = [] := List.length_eq_zero_iff.1 (by omega)
    exact ⟨rfl, Nat.lt_succ_self n, fun h => by cases hin (n + 1) (Nat.lt_succ_self n) h⟩
  | succ fuel ih =>
    unfold findFree
    by_cases hc : taken.contains (numbered hint (n + 1))
    · have hmem := hin (n + 1) (Nat.lt_succ_self n) (Std.TreeSet.mem_iff_contains.2 hc)
      simp only [numbered] at hc
      simp only [hc, if_true]
      -- the register that was in the way cannot be so again
      obtain ⟨heq, hlt, hfree⟩ := ih (n := n + 1) (names.erase (numbered hint (n + 1)))
        (by rw [List.length_erase_of_mem hmem]; omega) fun j hj ht => by
          have hne : numbered hint j ≠ numbered hint (n + 1) := fun he => by
            have := (numbered_inj.1 he).2
            omega
          exact (List.mem_erase_of_ne hne).2 (hin j (by omega) ht)
      exact ⟨heq, by omega, hfree⟩
    · have hc' := hc
      simp only [numbered] at hc'
      simp only [hc']
      exact ⟨rfl, Nat.lt_succ_self n, fun h => hc (Std.TreeSet.mem_iff_contains.1 h)⟩

lemma fresh_of_fresh (h : fresh taken hint k = .ok (reg, k')) : Fresh taken hint k reg k' := by
  obtain ⟨rfl, rfl⟩ := Prod.mk.inj (Except.ok.inj h).symm
  exact fresh_findFree taken.toList (le_of_eq Std.TreeSet.length_toList) fun j _ hj =>
    Std.TreeSet.mem_toList.2 hj

/-! ### Rules -/

/-- Values that are not fixed are saved in fresh registers: the moves, and what is used
instead. -/
inductive Saves (taken : Taken) :
    List Expr → Nat → List Stmt → List Expr → Nat → Prop where
  | nil {k} : Saves taken [] k [] [] k
  | keep {x xs k moves ys k'} : isFixed taken x = true → Saves taken xs k moves ys k' →
    Saves taken (x :: xs) k moves (x :: ys) k'
  | save {x xs k reg k1 moves ys k'} : isFixed taken x = false → Fresh taken "lt" k reg k1 →
    Saves taken xs k1 moves ys k' →
    Saves taken (x :: xs) k (.moveTemp reg x :: moves) (.temp reg :: ys) k'

/-- A sibling that brings code is joined to others: their values are saved in front of that
code. A sibling without code changes nothing. -/
inductive Joins (taken : Taken) (xs : List Expr) (k : Nat) :
    List Stmt → List Stmt → List Expr → Nat → Prop where
  | plain : Joins taken xs k [] [] xs k
  | after {pre moves zs k'} : pre ≠ [] → Saves taken xs k moves zs k' →
    Joins taken xs k pre moves zs k'

mutual

/-- An expression is flattened to code and a value. -/
inductive FlattensExpr (taken : Taken) :
    Structured.Expr → Nat → List Stmt → Expr → Nat → Prop where
  | const {v k} : FlattensExpr taken (.const v) k [] (.const v) k
  | temp {r k} : FlattensExpr taken (.temp r) k [] (.temp r) k
  | name {l k} : FlattensExpr taken (.name l) k [] (.name l) k
  | mem {e k pre x k'} : FlattensExpr taken e k pre x k' →
    FlattensExpr taken (.mem e) k pre (.mem x) k'
  | binop {op l r k pre x y k'} : FlattensAll taken [] [l, r] k pre [x, y] k' →
    FlattensExpr taken (.binop op l r) k pre (.binop op x y) k'
  | unop {op e k pre x k'} : FlattensExpr taken e k pre x k' →
    FlattensExpr taken (.unop op e) k pre (.unop op x) k'
  | call {callee args k dest k1 pre f xs k'} : Fresh taken "lc" k dest k1 →
    FlattensAll taken [] (callee :: args) k1 pre (f :: xs) k' →
    FlattensExpr taken (.call callee args) k (pre ++ [.call 0 dest f xs]) (.temp dest) k'
  | eseq {s e k code k1 pre x k'} : FlattensStmt taken s k code k1 →
    FlattensExpr taken e k1 pre x k' → FlattensExpr taken (.eseq s e) k (code ++ pre) x k'

/-- Siblings are flattened after others, whose values are given: the code for them, and all
values. -/
inductive FlattensAll (taken : Taken) :
    List Expr → List Structured.Expr → Nat → List Stmt → List Expr → Nat → Prop where
  | nil {xs k} : FlattensAll taken xs [] k [] xs k
  | cons {xs e es k pre x k1 moves zs k2 code ys k'} : FlattensExpr taken e k pre x k1 →
    Joins taken xs k1 pre moves zs k2 → FlattensAll taken (zs ++ [x]) es k2 code ys k' →
    FlattensAll taken xs (e :: es) k (moves ++ pre ++ code) ys k'

/-- A move of a source to a target is flattened to code. -/
inductive FlattensMove (taken : Taken) :
    Structured.Expr → Structured.Expr → Nat → List Stmt → Nat → Prop where
  | temp {r e k pre x k'} : (∀ callee args, e ≠ .call callee args) →
    FlattensExpr taken e k pre x k' →
    FlattensMove taken (.temp r) e k (pre ++ [.moveTemp r x]) k'
  | call {r callee args k pre f xs k'} : FlattensAll taken [] (callee :: args) k pre (f :: xs) k' →
    FlattensMove taken (.temp r) (.call callee args) k (pre ++ [.call 0 r f xs]) k'
  | mem {addr e k pre x y k'} : FlattensAll taken [] [addr, e] k pre [x, y] k' →
    FlattensMove taken (.mem addr) e k (pre ++ [.moveMem x y]) k'
  | eseq {s target e k code k1 rest k'} : FlattensStmt taken s k code k1 →
    FlattensMove taken target e k1 rest k' →
    FlattensMove taken (.eseq s target) e k (code ++ rest) k'

/-- A statement is flattened to code. -/
inductive FlattensStmt (taken : Taken) :
    Structured.Stmt → Nat → List Stmt → Nat → Prop where
  | skip {k} : FlattensStmt taken .skip k [] k
  | label {l k} : FlattensStmt taken (.label l) k [.label l] k
  | seq {ss k code k'} : FlattensStmts taken ss k code k' →
    FlattensStmt taken (.seq ss) k code k'
  | move {target e k code k'} : FlattensMove taken target e k code k' →
    FlattensStmt taken (.move target e) k code k'
  | expCall {callee args k pre f xs k'} : FlattensAll taken [] (callee :: args) k pre (f :: xs) k' →
    FlattensStmt taken (.exp (.call callee args)) k (pre ++ [.call 0 "" f xs]) k'
  | drop {e k pre x k'} : (∀ callee args, e ≠ .call callee args) → isInert x = true →
    FlattensExpr taken e k pre x k' → FlattensStmt taken (.exp e) k pre k'
  | exp {e k pre x k'} : (∀ callee args, e ≠ .call callee args) → isInert x = false →
    FlattensExpr taken e k pre x k' → FlattensStmt taken (.exp e) k (pre ++ [.exp x]) k'
  | jump {e k pre x k'} : FlattensExpr taken e k pre x k' →
    FlattensStmt taken (.jump e) k (pre ++ [.jump x]) k'
  | cjump {e yes no k pre x k'} : FlattensExpr taken e k pre x k' →
    FlattensStmt taken (.cjump e yes no) k (pre ++ [.cjump x yes no]) k'
  | ret {es k pre xs k'} : FlattensAll taken [] es k pre xs k' →
    FlattensStmt taken (.ret es) k (pre ++ [.ret xs]) k'
  | call {returns callee args k pre f xs k'} :
    FlattensAll taken [] (callee :: args) k pre (f :: xs) k' →
    FlattensStmt taken (.call returns callee args) k (pre ++ [.call returns "" f xs]) k'

/-- Statements are flattened one after the other. -/
inductive FlattensStmts (taken : Taken) :
    List Structured.Stmt → Nat → List Stmt → Nat → Prop where
  | nil {k} : FlattensStmts taken [] k [] k
  | cons {s ss k code k1 rest k'} : FlattensStmt taken s k code k1 →
    FlattensStmts taken ss k1 rest k' → FlattensStmts taken (s :: ss) k (code ++ rest) k'

end

section

variable {taken : Taken}

lemma Saves.length_eq (h : Saves taken xs k moves ys k') : ys.length = xs.length := by
  induction h with
  | nil => rfl
  | keep _ _ ih => simp [ih]
  | save _ _ _ ih => simp [ih]

lemma Joins.length_eq (h : Joins taken xs k pre moves zs k') : zs.length = xs.length := by
  cases h with
  | plain => rfl
  | after _ h => exact h.length_eq

lemma FlattensAll.length_eq (h : FlattensAll taken xs es k code ys k') :
    ys.length = xs.length + es.length := by
  induction es generalizing xs k code with
  | nil =>
    cases h
    rfl
  | cons e es ih =>
    cases h with
    | cons _ hj h =>
      have := ih h
      simp only [List.length_append, List.length_cons, List.length_nil, hj.length_eq] at this ⊢
      omega

/-! ### Lowering goes by the rules -/

lemma saves_of_save (h : save taken xs k = .ok (r, k')) : Saves taken xs k r.1 r.2 k' := by
  induction xs generalizing k r with
  | nil =>
    obtain ⟨rfl, rfl⟩ := pure_eq_ok h
    exact .nil
  | cons x xs ih =>
    unfold save at h
    by_cases hx : isFixed taken x = true
    · simp only [hx, if_true] at h
      obtain ⟨⟨moves, ys⟩, k1, hs, h⟩ := ok_of_bind h
      obtain ⟨rfl, rfl⟩ := pure_eq_ok h
      exact .keep hx (ih hs)
    · simp only [hx] at h
      obtain ⟨reg, k1, hreg, h⟩ := ok_of_bind h
      obtain ⟨⟨moves, ys⟩, k2, hs, h⟩ := ok_of_bind h
      obtain ⟨rfl, rfl⟩ := pure_eq_ok h
      exact .save (by simpa using hx) (fresh_of_fresh hreg) (ih hs)

lemma joins_of_join (h : join taken (p, xs) next k = .ok (r, k')) :
    ∃ moves zs, Joins taken xs k next.1 moves zs k' ∧
      r = (p ++ (moves ++ next.1), zs ++ [next.2]) := by
  obtain ⟨pre, x⟩ := next
  unfold join at h
  by_cases hn : pre = []
  · simp only [hn, List.isEmpty_nil, if_true] at h
    obtain ⟨rfl, rfl⟩ := pure_eq_ok h
    subst hn
    exact ⟨[], xs, .plain, by simp⟩
  · have hne : ¬pre.isEmpty = true := by simpa using hn
    simp only [hne] at h
    obtain ⟨⟨moves, zs⟩, k1, hsave, h⟩ := ok_of_bind h
    obtain ⟨rfl, rfl⟩ := pure_eq_ok h
    exact ⟨moves, zs, .after hn (saves_of_save hsave), by simp⟩

lemma flattensAll_of_siblings
    (hhead : ∀ {k r k'}, head k = .ok (r, k') → FlattensExpr taken e k r.1 r.2 k')
    (htail : ∀ {pre xs k r k'}, tail (pre, xs) k = .ok (r, k') →
      ∃ code ys, r = (pre ++ code, ys) ∧ FlattensAll taken xs es k code ys k')
    (h : siblings taken head tail k = .ok (all, k')) :
    FlattensAll taken [] (e :: es) k all.1 all.2 k' := by
  obtain ⟨first, k1, hfirst, h⟩ := ok_of_bind h
  obtain ⟨done, k2, hj, h⟩ := ok_of_bind h
  obtain ⟨moves, zs, hjoin, rfl⟩ := joins_of_join hj
  obtain ⟨code, ys, rfl, hes⟩ := htail h
  simpa using FlattensAll.cons (hhead hfirst) hjoin hes

lemma flattensAll_two (hl : ∀ {k r k'}, left k = .ok (r, k') → FlattensExpr taken e k r.1 r.2 k')
    (hr : ∀ {k r k'}, right k = .ok (r, k') → FlattensExpr taken e' k r.1 r.2 k')
    (h : siblings taken left (fun first => do join taken first (← right)) k = .ok (all, k')) :
    ∃ pre x y, all = (pre, [x, y]) ∧ FlattensAll taken [] [e, e'] k pre [x, y] k' := by
  have hall : FlattensAll taken [] [e, e'] k all.1 all.2 k' :=
    flattensAll_of_siblings hl (fun hj => by
      obtain ⟨next, k1, hnext, hj⟩ := ok_of_bind hj
      obtain ⟨moves, zs, hjoin, rfl⟩ := joins_of_join hj
      exact ⟨moves ++ next.1, zs ++ [next.2], by simp,
        by simpa using FlattensAll.cons (hr hnext) hjoin .nil⟩) h
  obtain ⟨x, y, hxy⟩ := List.length_eq_two.1 hall.length_eq
  rw [hxy] at hall
  exact ⟨all.1, x, y, Prod.ext rfl hxy, hall⟩

lemma flattensAll_callee (hcallee : ∀ {k r k'}, lowerExpr taken callee k = .ok (r, k') →
      FlattensExpr taken callee k r.1 r.2 k')
    (hargs : ∀ {pre xs k r k'}, lowerExprs taken (pre, xs) args k = .ok (r, k') →
      ∃ code ys, r = (pre ++ code, ys) ∧ FlattensAll taken xs args k code ys k')
    (h : siblings taken (lowerExpr taken callee) (lowerExprs taken · args) k = .ok (all, k')) :
    ∃ pre f xs, all = (pre, f :: xs) ∧ FlattensAll taken [] (callee :: args) k pre
      (f :: xs) k' := by
  have hall := flattensAll_of_siblings hcallee hargs h
  obtain ⟨f, xs, hxs⟩ := List.exists_cons_of_length_pos (l := all.2) (by
    rw [hall.length_eq, List.length_cons]
    omega)
  rw [hxs] at hall
  exact ⟨all.1, f, xs, Prod.ext rfl hxs, hall⟩

lemma flattensStmt_exp {e : Structured.Expr} {k k' : Nat} {next : List Stmt × Expr}
    (hne : ∀ callee args, e ≠ .call callee args) (h : FlattensExpr taken e k next.1 next.2 k') :
    FlattensStmt taken (.exp e) k
      (if isInert next.2 then next.1 else next.1 ++ [.exp next.2]) k' := by
  by_cases hi : isInert next.2 = true
  · rw [if_pos hi]
    exact .drop hne hi h
  · rw [if_neg hi]
    exact .exp hne (by simpa using hi) h

mutual

lemma flattensExpr_of_lowerExpr {k r k'} :
    (e : Structured.Expr) → lowerExpr taken e k = .ok (r, k') → FlattensExpr taken e k r.1 r.2 k'
  | .const v, h => by
    obtain ⟨rfl, rfl⟩ := pure_eq_ok h
    exact .const
  | .temp r, h => by
    obtain ⟨rfl, rfl⟩ := pure_eq_ok h
    exact .temp
  | .name l, h => by
    obtain ⟨rfl, rfl⟩ := pure_eq_ok h
    exact .name
  | .mem e, h => by
    obtain ⟨r, he, rfl⟩ := bind_pure_eq_ok h
    exact .mem (flattensExpr_of_lowerExpr e he)
  | .binop op l r, h => by
    obtain ⟨all, k1, hall, h⟩ := ok_of_bind h
    obtain ⟨pre, x, y, rfl, hlr⟩ :=
      flattensAll_two (flattensExpr_of_lowerExpr l) (flattensExpr_of_lowerExpr r) hall
    obtain ⟨rfl, rfl⟩ := pure_eq_ok h
    exact .binop hlr
  | .unop op e, h => by
    obtain ⟨r, he, rfl⟩ := bind_pure_eq_ok h
    exact .unop (flattensExpr_of_lowerExpr e he)
  | .call callee args, h => by
    obtain ⟨dest, k1, hd, h⟩ := ok_of_bind h
    obtain ⟨all, k2, hall, h⟩ := ok_of_bind h
    obtain ⟨pre, f, xs, rfl, hcall⟩ := flattensAll_callee (flattensExpr_of_lowerExpr callee)
      (flattensAll_of_lowerExprs args) hall
    obtain ⟨rfl, rfl⟩ := pure_eq_ok h
    exact .call (fresh_of_fresh hd) hcall
  | .eseq s e, h => by
    obtain ⟨code, k1, hs, h⟩ := ok_of_bind h
    obtain ⟨r, he, rfl⟩ := bind_pure_eq_ok h
    exact .eseq (flattensStmt_of_lowerStmt s hs) (flattensExpr_of_lowerExpr e he)

lemma flattensAll_of_lowerExprs {pre xs k r k'} : (es : List Structured.Expr) →
    lowerExprs taken (pre, xs) es k = .ok (r, k') →
    ∃ code ys, r = (pre ++ code, ys) ∧ FlattensAll taken xs es k code ys k'
  | [], h => by
    obtain ⟨rfl, rfl⟩ := pure_eq_ok h
    exact ⟨[], xs, by simp, .nil⟩
  | e :: es, h => by
    obtain ⟨next, k1, he, h⟩ := ok_of_bind h
    obtain ⟨done, k2, hj, h⟩ := ok_of_bind h
    obtain ⟨moves, zs, hjoin, rfl⟩ := joins_of_join hj
    obtain ⟨code, ys, rfl, hall⟩ := flattensAll_of_lowerExprs es h
    exact ⟨moves ++ next.1 ++ code, ys, by simp, .cons (flattensExpr_of_lowerExpr e he) hjoin hall⟩

lemma flattensMove_of_lowerMove {src : Structured.Expr} {value into k code k'} :
    (target : Structured.Expr) →
    (∀ {k r k'}, value k = .ok (r, k') → FlattensExpr taken src k r.1 r.2 k') →
    (∀ {dest k code k'},
      into dest k = .ok (code, k') → FlattensMove taken (.temp dest) src k code k') →
    lowerMove taken target value into k = .ok (code, k') → FlattensMove taken target src k code k'
  | .temp r, _, hinto, h => hinto h
  | .mem addr, hvalue, _, h => by
    obtain ⟨all, k1, hall, h⟩ := ok_of_bind h
    obtain ⟨pre, x, y, rfl, hpair⟩ :=
      flattensAll_two (flattensExpr_of_lowerExpr addr) hvalue hall
    obtain ⟨rfl, rfl⟩ := pure_eq_ok h
    exact .mem hpair
  | .eseq s target, hvalue, hinto, h => by
    obtain ⟨code, k1, hs, h⟩ := ok_of_bind h
    obtain ⟨rest, ht, rfl⟩ := bind_pure_eq_ok h
    exact .eseq (flattensStmt_of_lowerStmt s hs) (flattensMove_of_lowerMove target hvalue hinto ht)

/-- Lowering goes by the rules. -/
lemma flattensStmt_of_lowerStmt {k code k'} :
    (s : Structured.Stmt) → lowerStmt taken s k = .ok (code, k') → FlattensStmt taken s k code k'
  | .skip, h => by
    obtain ⟨rfl, rfl⟩ := pure_eq_ok h
    exact .skip
  | .label l, h => by
    obtain ⟨rfl, rfl⟩ := pure_eq_ok h
    exact .label
  | .seq ss, h => .seq (flattensStmts_of_lowerStmts ss h)
  | .move target e, h => by
    rw [lowerStmt] at h
    refine .move (flattensMove_of_lowerMove target (flattensExpr_of_lowerExpr e) ?_ h)
    intro dest k code k' h
    cases e with
    | call callee args =>
      obtain ⟨all, k1, hall, h⟩ := ok_of_bind h
      obtain ⟨pre, f, xs, rfl, hargs⟩ := flattensAll_callee (flattensExpr_of_lowerExpr callee)
        (flattensAll_of_lowerExprs args) hall
      obtain ⟨rfl, rfl⟩ := pure_eq_ok h
      exact .call hargs
    | _ =>
      obtain ⟨next, he, rfl⟩ := bind_pure_eq_ok h
      exact .temp (by simp) (flattensExpr_of_lowerExpr _ he)
  | .exp e, h => by
    cases e with
    | call callee args =>
      obtain ⟨all, k1, hall, h⟩ := ok_of_bind h
      obtain ⟨pre, f, xs, rfl, hargs⟩ := flattensAll_callee (flattensExpr_of_lowerExpr callee)
        (flattensAll_of_lowerExprs args) hall
      obtain ⟨rfl, rfl⟩ := pure_eq_ok h
      exact .expCall hargs
    | _ =>
      obtain ⟨next, he, rfl⟩ := bind_pure_eq_ok h
      exact flattensStmt_exp (by simp) (flattensExpr_of_lowerExpr _ he)
  | .jump e, h => by
    obtain ⟨r, he, rfl⟩ := bind_pure_eq_ok h
    exact .jump (flattensExpr_of_lowerExpr e he)
  | .cjump e yes no, h => by
    obtain ⟨r, he, rfl⟩ := bind_pure_eq_ok h
    exact .cjump (flattensExpr_of_lowerExpr e he)
  | .ret es, h => by
    obtain ⟨all, hall, rfl⟩ := bind_pure_eq_ok h
    obtain ⟨code, ys, rfl, hes⟩ := flattensAll_of_lowerExprs es hall
    exact .ret hes
  | .call returns callee args, h => by
    obtain ⟨all, k1, hall, h⟩ := ok_of_bind h
    obtain ⟨pre, f, xs, rfl, hargs⟩ := flattensAll_callee (flattensExpr_of_lowerExpr callee)
      (flattensAll_of_lowerExprs args) hall
    obtain ⟨rfl, rfl⟩ := pure_eq_ok h
    exact .call hargs

lemma flattensStmts_of_lowerStmts {k code k'} : (ss : List Structured.Stmt) →
    lowerStmts taken ss k = .ok (code, k') → FlattensStmts taken ss k code k'
  | [], h => by
    obtain ⟨rfl, rfl⟩ := pure_eq_ok h
    exact .nil
  | s :: ss, h => by
    obtain ⟨first, k1, hs, h⟩ := ok_of_bind h
    obtain ⟨rest, hss, rfl⟩ := bind_pure_eq_ok h
    exact .cons (flattensStmt_of_lowerStmt s hs) (flattensStmts_of_lowerStmts ss hss)

end

/-! ### Units -/

/-- Functions are flattened one after the other, and the counter goes on. -/
inductive FlattensFunctions (taken : Taken) :
    List Structured.Function → Nat → List Function → Prop where
  | nil {k} : FlattensFunctions taken [] k []
  | cons {f fs k body k1 gs} : FlattensStmt taken f.body k body k1 →
    FlattensFunctions taken fs k1 gs →
    FlattensFunctions taken (f :: fs) k ({ name := f.name, params := f.params, body } :: gs)

lemma FlattensFunctions.forall₂ (h : FlattensFunctions taken fs k gs)
    (hR : ∀ f ∈ fs, ∀ k body k', FlattensStmt taken f.body k body k' →
      R f { name := f.name, params := f.params, body }) : List.Forall₂ R fs gs := by
  induction h with
  | nil => exact .nil
  | cons h _ ih =>
    obtain ⟨hf, hfs⟩ := List.forall_mem_cons.1 hR
    exact .cons (hf _ _ _ h) (ih hfs)

lemma flattens_of_lowerFunctions (h : lowerFunctions taken fs k = .ok gs) :
    FlattensFunctions taken fs k gs := by
  induction fs generalizing k gs with
  | nil =>
    cases h
    exact .nil
  | cons f fs ih =>
    unfold lowerFunctions at h
    cases hf : (lowerFunction taken f).run k with
    | error cause => rw [hf] at h; cases h
    | ok r =>
      rw [hf] at h
      obtain ⟨gs, hgs, h⟩ := Except.bind_eq_ok h
      cases h
      obtain ⟨body, k1, hbody, hf⟩ := ok_of_bind hf
      cases hf
      exact .cons (flattensStmt_of_lowerStmt f.body hbody) (ih hgs)

end

/-- Lowering a unit goes by the rules. -/
lemma flattens_of_ofStructured (h : CodeUnit.ofStructured u = .ok l) :
    FlattensFunctions (Std.TreeSet.ofList u.temps) u.functions 0 l.functions := by
  obtain ⟨gs, hgs, h⟩ := Except.bind_eq_ok h
  cases h
  exact flattens_of_lowerFunctions hgs

end TreeMachine.Flat
