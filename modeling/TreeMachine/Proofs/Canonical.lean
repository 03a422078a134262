import TreeMachine.Flat.Lift
import TreeMachine.Proofs.Assembled

/-!
# Lowered code is canonical

Lowering undoes lifting. A flat expression has no effects, so nothing stands in front of it and
nothing is saved; a flat statement becomes itself again. Two kinds of flat statement do not, since
lifting loses or lowering drops a part of them: an evaluation that cannot fail, and a call that has
a destination and expects a number of results as well. Lowering gives neither of them.
-/

open List

namespace TreeMachine.Flat

open Lowering

/-- A statement that lowering may give: it does not evaluate a constant, a register or a name for
nothing, and does not ask for both a destination and a number of results. -/
def Stmt.Canonical : Stmt → Prop
  | .exp x => (∀ v, x ≠ .const v) ∧ (∀ r, x ≠ .temp r) ∧ ∀ l, x ≠ .name l
  | .call returns dest _ _ => dest = "" ∨ returns = 0
  | _ => True

def CodeUnit.Canonical (u : CodeUnit) : Prop :=
  ∀ f ∈ u.functions, ∀ s ∈ f.body, s.Canonical

/-! ### Lowering undoes lifting -/

section

variable {taken : Taken}

lemma join_plain (done : List Stmt × List Expr) (x : Expr) :
    join taken done ([], x) = pure (done.1, done.2 ++ [x]) :=
  rfl

lemma lowerExpr_lift (x : Expr) : lowerExpr taken x.lift = pure ([], x) := by
  induction x with
  | const v => rfl
  | temp r => rfl
  | name l => rfl
  | mem addr ih => rw [Expr.lift, lowerExpr, ih, pure_bind]
  | unop op x ih => rw [Expr.lift, lowerExpr, ih, pure_bind]
  | binop op l r ihl ihr =>
    simp only [Expr.lift, lowerExpr, siblings, ihl, ihr, pure_bind, join_plain, nil_append,
      cons_append]

lemma lowerExprs_lift (xs : List Expr) (pre : List Stmt) (ys : List Expr) :
    lowerExprs taken (pre, ys) (xs.map Expr.lift) = pure (pre, ys ++ xs) := by
  induction xs generalizing ys with
  | nil => simp [lowerExprs]
  | cons x xs ih =>
    simp only [map_cons, lowerExprs, lowerExpr_lift, pure_bind, join_plain, ih,
      append_assoc, cons_append, nil_append]

lemma siblings_lift (f : Expr) (xs : List Expr) :
    siblings taken (lowerExpr taken f.lift) (lowerExprs taken · (xs.map Expr.lift)) =
      pure ([], f :: xs) := by
  simp only [siblings, lowerExpr_lift, pure_bind, join_plain, lowerExprs_lift, nil_append,
    cons_append]

lemma lowerStmt_moveTemp (r : String) (x : Expr) :
    lowerStmt taken (.move (.temp r) x.lift) = pure [.moveTemp r x] := by
  have hvalue : (do
      let next ← lowerExpr taken x.lift
      return next.1 ++ [Stmt.moveTemp r next.2] : Lowering (List Stmt)) =
        pure [.moveTemp r x] := by
    rw [lowerExpr_lift, pure_bind]
    rfl
  cases x <;> exact hvalue

lemma lowerStmt_exp (h : isInert x = false) : lowerStmt taken (.exp x.lift) = pure [.exp x] := by
  have hvalue : (do
      let next ← lowerExpr taken x.lift
      return if isInert next.2 then next.1 else next.1 ++ [Stmt.exp next.2] :
        Lowering (List Stmt)) = pure [.exp x] := by
    simp only [lowerExpr_lift, pure_bind, h, nil_append]
    rfl
  cases x <;> exact hvalue

lemma isInert_eq_false_iff :
    isInert x = false ↔ (∀ v, x ≠ .const v) ∧ (∀ r, x ≠ .temp r) ∧ ∀ l, x ≠ .name l := by
  cases x <;> simp [isInert]

/-- Lowering a lifted statement gives it back. -/
lemma lowerStmt_lift (h : s.Canonical) : lowerStmt taken s.lift = pure [s] := by
  cases s with
  | moveTemp r x => exact lowerStmt_moveTemp r x
  | moveMem addr x =>
    simp only [Stmt.lift, lowerStmt, lowerMove, siblings, lowerExpr_lift, pure_bind, join_plain,
      nil_append, cons_append]
  | exp x => exact lowerStmt_exp (isInert_eq_false_iff.2 h)
  | jump x =>
    rw [Stmt.lift, lowerStmt, lowerExpr_lift, pure_bind]
    rfl
  | cjump x yes no =>
    rw [Stmt.lift, lowerStmt, lowerExpr_lift, pure_bind]
    rfl
  | label l => rfl
  | ret xs =>
    rw [Stmt.lift, lowerStmt, lowerExprs_lift, pure_bind]
    rfl
  | call returns dest f xs =>
    rw [Stmt.lift]
    split
    next hempty =>
      obtain rfl : dest = "" := String.isEmpty_iff.1 hempty
      rw [lowerStmt, siblings_lift, pure_bind]
      rfl
    next hempty =>
      obtain rfl : returns = 0 := h.resolve_left (mt String.isEmpty_iff.2 hempty)
      simp only [lowerStmt, lowerMove, siblings_lift, pure_bind]
      rfl

lemma lowerStmts_lift (h : ∀ s ∈ ss, s.Canonical) :
    lowerStmts taken (ss.map Stmt.lift) = pure ss := by
  induction ss with
  | nil => rfl
  | cons s ss ih =>
    obtain ⟨hs, hss⟩ := forall_mem_cons.1 h
    simp only [map_cons, lowerStmts, lowerStmt_lift hs, ih hss, pure_bind, cons_append, nil_append]

lemma lowerFunctions_lift (h : ∀ f ∈ fs, ∀ s ∈ f.body, s.Canonical) (k : Nat) :
    lowerFunctions taken (fs.map Function.lift) k = .ok fs := by
  induction fs with
  | nil => rfl
  | cons f fs ih =>
    obtain ⟨hf, hfs⟩ := forall_mem_cons.1 h
    have hbody : lowerFunction taken f.lift = pure f := by
      rw [lowerFunction, Function.lift, lowerStmt, lowerStmts_lift hf, pure_bind]
    rw [map_cons, lowerFunctions, hbody, StateT.run_pure]
    show (lowerFunctions taken (fs.map Function.lift) k >>= fun gs => pure (f :: gs)) = _
    rw [ih hfs]
    rfl

end

lemma ofStructured_lift (h : u.Canonical) : CodeUnit.ofStructured u.lift = .ok u := by
  rw [CodeUnit.ofStructured, CodeUnit.lift, lowerFunctions_lift h]
  rfl

/-! ### Lowering gives canonical code -/

section

variable {taken : Taken}

lemma Saves.canonical (h : Saves taken xs k moves ys k') : ∀ s ∈ moves, s.Canonical := by
  induction h with
  | nil => simp
  | keep _ _ ih => exact ih
  | save _ _ _ ih => exact forall_mem_cons.2 ⟨trivial, ih⟩

lemma Joins.canonical (h : Joins taken xs k pre moves zs k') : ∀ s ∈ moves, s.Canonical := by
  cases h with
  | plain => simp
  | after _ h => exact h.canonical

lemma canonical_snoc {s : Stmt} (h : ∀ t ∈ code, t.Canonical) (hs : s.Canonical) :
    ∀ t ∈ code ++ [s], t.Canonical :=
  forall_mem_append.2 ⟨h, forall_mem_singleton.2 hs⟩

lemma Ends.canonical (h : Ends T t s) : s.Canonical := by
  cases h with
  | exp hi => exact isInert_eq_false_iff.1 hi
  | call | expCall => exact .inl rfl
  | moveCall => exact .inr rfl
  | _ => trivial

/-- Lowering gives canonical code. -/
lemma Assembles.canonical (h : Assembles taken T is k code xs k') : ∀ s ∈ code, s.Canonical := by
  induction h with
  | nil | const | name | temp _ => simp
  | label => exact forall_mem_singleton.2 trivial
  | node _ _ _ ih | value _ _ _ ih | drop _ ih => exact ih
  | append _ _ ih ih' => exact forall_mem_append.2 ⟨ih, ih'⟩
  | join _ _ hj ih ih' =>
    exact forall_mem_append.2 ⟨ih, forall_mem_append.2 ⟨hj.canonical, ih'⟩⟩
  | result _ _ ih => exact canonical_snoc ih (.inr rfl)
  | stmt s hs _ ih => exact canonical_snoc ih hs.canonical

lemma FlattensFunctions.canonical (h : FlattensFunctions taken fs k gs) :
    ∀ g ∈ gs, ∀ s ∈ g.body, s.Canonical := by
  induction h with
  | nil => simp
  | cons hbody _ ih => exact forall_mem_cons.2 ⟨(assembles_stmt hbody fun _ h => h).canonical, ih⟩

end

lemma canonical_of_ofStructured (h : CodeUnit.ofStructured u = .ok l) : l.Canonical :=
  (flattens_of_ofStructured h).canonical

/-- The output of lowering is canonical. The units that come back unchanged when they are lifted and
lowered are the canonical ones, and lowering gives only such units. -/
theorem lowering_canonical :
    (∀ l : CodeUnit, CodeUnit.ofStructured l.lift = .ok l ↔ l.Canonical) ∧
    ∀ (u : Structured.CodeUnit) (l : CodeUnit), CodeUnit.ofStructured u = .ok l →
      l.Canonical ∧ CodeUnit.ofStructured l.lift = .ok l := by
  refine ⟨fun l => ⟨canonical_of_ofStructured, ofStructured_lift⟩, fun u l h => ?_⟩
  have hl := canonical_of_ofStructured h
  exact ⟨hl, ofStructured_lift hl⟩

/-- A unit that lowering changes: it stores the result of a call inside of an operand. -/
def spilled : Structured.CodeUnit where
  name := "spilled"
  functions := [{
    name := "main"
    params := ["n"]
    body := .seq [
      .exp (.temp "n"),
      .move (.eseq (.label "L") (.mem (.temp "n")))
        (.binop .add (.temp "n") (.call (.name "main") [])),
      .move (.temp "n") (.call (.name "main") [.temp "n"])] }]

theorem lowering_canonical_spilled : ∃ l, CodeUnit.ofStructured spilled = .ok l ∧ l.Canonical ∧
    CodeUnit.ofStructured l.lift = .ok l ∧ l.functions.map (·.body.length) = [6] := by
  have hrun : (CodeUnit.ofStructured spilled).toOption.map
      (fun l => l.functions.map (·.body.length)) = some [6] := by
    decide +kernel
  obtain ⟨l, hl, hlen⟩ := Except.map_eq_some.1 hrun
  obtain ⟨hc, hback⟩ := lowering_canonical.2 spilled l hl
  exact ⟨l, hl, hc, hback, hlen⟩

end TreeMachine.Flat
