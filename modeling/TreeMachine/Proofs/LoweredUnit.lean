import TreeMachine.Proofs.Adequacy
import TreeMachine.Proofs.LoweredShape

/-!
# Lowered units

Lowering confined code always succeeds. The flat unit has the functions of the structured one
under their names and with their labels, it calls what that one calls, and as structured code
it is confined again.
-/

open List

namespace TreeMachine.Flat

open Linear
open Linear.Program
open Machine

variable {f : Structured.Function} {g : Function} {k : Nat}

/-! ### Lowering succeeds -/

/-- A computation of lowering succeeds from every number on. -/
def Runs {α : Type} (m : Lowering α) : Prop :=
  ∀ k, ∃ r, m k = .ok r

section

variable {α β : Type} {taken : Taken}

lemma Runs.pure (x : α) : Runs (Pure.pure x : Lowering α) :=
  fun k => ⟨(x, k), rfl⟩

lemma Runs.bind {m : Lowering α} {f : α → Lowering β} (hm : Runs m) (hf : ∀ x, Runs (f x)) :
    Runs (m >>= f) := by
  intro k
  obtain ⟨⟨x, k1⟩, hx⟩ := hm k
  obtain ⟨r, hr⟩ := hf x k1
  refine ⟨r, ?_⟩
  show (m k >>= fun p => f p.1 p.2) = _
  rw [hx]
  exact hr

lemma runs_fresh (hint : String) : Runs (Lowering.fresh taken hint) :=
  fun _ => ⟨_, rfl⟩

lemma runs_save (xs : List Expr) : Runs (Lowering.save taken xs) := by
  induction xs with
  | nil => exact .pure _
  | cons x xs ih =>
    unfold Lowering.save
    split
    · exact ih.bind fun _ => .pure _
    · exact (runs_fresh "lt").bind fun _ => ih.bind fun _ => .pure _

lemma runs_join (done : List Stmt × List Expr) (next : List Stmt × Expr) :
    Runs (Lowering.join taken done next) := by
  unfold Lowering.join
  split
  · exact .pure _
  · exact (runs_save done.2).bind fun _ => .pure _

lemma Runs.siblings {rest : List Stmt × List Expr → Lowering (List Stmt × List Expr)}
    (hh : Runs first) (ht : ∀ done, Runs (rest done)) :
    Runs (Lowering.siblings taken first rest) :=
  hh.bind fun next => (runs_join ([], []) next).bind ht

lemma Runs.two (hl : Runs left) (hr : Runs right) (hmake : ∀ all, Runs (make all)) :
    Runs (Lowering.siblings taken left
      (fun first => do Lowering.join taken first (← right)) >>= make) :=
  (hl.siblings fun first => hr.bind fun next => runs_join first next).bind hmake

end

section

variable {taken : Taken} {ok : String → Prop} {esc : List String}

mutual

lemma runs_expr : (e : Structured.Expr) → e.Confined ok esc → Runs (lowerExpr taken e)
  | .const _, _ => .pure _
  | .temp _, _ => .pure _
  | .mem e, hc => (runs_expr e hc).bind fun _ => .pure _
  | .binop _ l r, hc => by
    refine (runs_expr l hc.2.1).two (runs_expr r hc.2.2) fun all => ?_
    split <;> exact .pure _
  | .unop _ e, hc => (runs_expr e hc).bind fun _ => .pure _
  | .call (.name _) args, hc =>
    (runs_fresh "lc").bind fun _ =>
      ((Runs.pure _).siblings fun done => runs_exprs args done hc.2).bind fun _ => .pure _
  | .eseq s e, hc =>
    (runs_stmt s hc.1).bind fun _ => (runs_expr e hc.2).bind fun _ => .pure _

lemma runs_exprs : (es : List Structured.Expr) → ∀ done, Structured.Expr.ConfinedAll ok esc es →
    Runs (lowerExprs taken done es)
  | [], _, _ => .pure _
  | e :: es, done, hc =>
    (runs_expr e hc.1).bind fun next =>
      (runs_join done next).bind fun done => runs_exprs es done hc.2

lemma runs_stmt {scope} :
    (s : Structured.Stmt) → s.Confined ok esc scope → Runs (lowerStmt taken s)
  | .skip, _ => .pure _
  | .label _, _ => .pure _
  | .seq ss, hc => runs_stmts ss hc.2
  | .move (.temp r) e, hc => by
    have hvalue : Runs (do
        let (pre, x) ← lowerExpr taken e
        return pre ++ [Stmt.moveTemp r x] : Lowering (List Stmt)) :=
      (runs_expr e hc).bind fun _ => .pure _
    cases e with
    | call callee args =>
      cases callee with
      | name f =>
        exact ((Runs.pure _).siblings fun done => runs_exprs args done hc.2).bind
          fun _ => .pure _
      | _ => exact hc.elim
    | _ => exact hvalue
  | .move (.mem addr) src, hc => by
    refine (runs_expr addr hc.1).two (runs_expr src hc.2) fun all => ?_
    split <;> exact .pure _
  | .exp e, hc => by
    have hvalue : Runs (do
        let (pre, x) ← lowerExpr taken e
        return if Lowering.isInert x then pre else pre ++ [Stmt.exp x] :
          Lowering (List Stmt)) :=
      (runs_expr e hc).bind fun _ => .pure _
    cases e with
    | call callee args =>
      cases callee with
      | name f =>
        exact ((Runs.pure _).siblings fun done => runs_exprs args done hc.2).bind
          fun _ => .pure _
      | _ => exact hc.elim
    | _ => exact hvalue
  | .jump (.name _), _ => (Runs.pure _).bind fun _ => .pure _
  | .cjump e _ _, hc => (runs_expr e hc.1).bind fun _ => .pure _
  | .ret es, hc => (runs_exprs es _ hc).bind fun _ => .pure _
  | .call _ (.name _) args, hc =>
    ((Runs.pure _).siblings fun done => runs_exprs args done hc.2).bind fun _ => .pure _

lemma runs_stmts {scope} : (ss : List Structured.Stmt) →
    Structured.Stmt.ConfinedAll ok esc scope ss → Runs (lowerStmts taken ss)
  | [], _ => .pure _
  | s :: ss, hc =>
    (runs_stmt s hc.1).bind fun _ => (runs_stmts ss hc.2).bind fun _ => .pure _

end

end

/-! ### Functions -/

section

variable {ok : String → Prop}

lemma confinedAll_body (h : f.Confined ok) :
    ∃ ss esc scope, f.body = .seq ss ∧ Structured.Stmt.ConfinedAll ok esc scope ss ∧
      ∀ l ∈ esc ++ scope, l ∈ Structured.labelsIn ss := by
  obtain ⟨ss, esc, ts, hbody, hconf, htrap⟩ := h
  refine ⟨ss ++ ts, esc, Structured.labelsIn ss, hbody, ?_, ?_⟩
  · refine Structured.Stmt.confinedAll_iff.2 fun s hs => ?_
    rcases mem_append.1 hs with hs | hs
    · exact Structured.Stmt.confinedAll_iff.1 hconf s hs
    · rcases htrap with ⟨-, rfl⟩ | ⟨g, hg, -, rfl, -⟩
      · cases hs
      · simp only [Structured.trapEnd, mem_cons, not_mem_nil, or_false] at hs
        rcases hs with rfl | rfl
        · trivial
        · exact ⟨hg, trivial⟩
  · rw [Structured.labelsIn_append]
    refine forall_mem_append.2 ⟨fun l hl => ?_, fun l => mem_append_left _⟩
    rcases htrap with ⟨rfl, -⟩ | ⟨g, -, rfl, rfl, -⟩
    · cases hl
    · obtain rfl := mem_singleton.1 hl
      exact mem_append_right _ (by simp [Structured.mem_labelsIn, Structured.trapEnd])

/-- A flat function is the lowered form of a structured one. -/
structure Lowered (taken : Taken) (ok : String → Prop) (f : Structured.Function) (g : Function) :
    Prop where
  name : g.name = f.name
  params : g.params = f.params
  body : ∃ ss k codes k', f.body = .seq ss ∧ g.body = codes.flatten ∧
    LowersStmts taken ok (· ∈ marks (itemsOf f.body)) ss k codes k'

lemma lowered_of_flattens (hc : f.Confined ok) (ht : ∀ r ∈ f.body.temps, r ∈ taken)
    (h : FlattensStmt taken f.body k body k') :
    Lowered taken ok f { name := f.name, params := f.params, body } := by
  obtain ⟨ss, esc, scope, hbody, hconf, hlabels⟩ := confinedAll_body hc
  have hmarks : marks (itemsOf f.body) = marks (itemsOfAll ss) := by
    rw [hbody, itemsOf, marks_append]
    simp [marks]
  have hlab : ∀ l ∈ esc ++ scope, l ∈ marks (itemsOf f.body) := fun l hl =>
    hmarks ▸ lab_of_labelsIn (hlabels l hl)
  obtain ⟨hesc, hscope⟩ := forall_mem_append.1 hlab
  have hfits : Fits taken (· ∈ marks (itemsOf f.body)) (Structured.Stmt.tempsAll ss)
      (marks (itemsOfAll ss)) := by
    rw [hbody] at ht
    exact ⟨ht, fun l hl => hmarks ▸ hl⟩
  rw [hbody] at h
  cases h with
  | seq h =>
    obtain ⟨codes, rfl, hl⟩ := lowersStmts_of_flattens hesc ss hconf hscope hfits h
    exact ⟨rfl, rfl, ss, k, codes, _, hbody, rfl, hl⟩

lemma lowerFunctions_succeeds (taken : Taken) (hc : ∀ f ∈ fs, f.Confined ok) :
    ∃ gs, lowerFunctions taken fs k = .ok gs := by
  induction fs generalizing k with
  | nil => exact ⟨[], rfl⟩
  | cons f fs ih =>
    obtain ⟨hcf, hcfs⟩ := forall_mem_cons.1 hc
    obtain ⟨ss, esc, scope, hbody, hconf, -⟩ := confinedAll_body hcf
    have hruns : Runs (lowerFunction taken f) := by
      refine Runs.bind ?_ fun _ => .pure _
      rw [hbody]
      exact runs_stmts ss hconf
    obtain ⟨⟨g, k'⟩, hg⟩ := hruns k
    obtain ⟨gs, hgs⟩ := ih (k := k') hcfs
    have hrun : (lowerFunction taken f).run k = .ok (g, k') := hg
    refine ⟨g :: gs, ?_⟩
    unfold lowerFunctions
    rw [hrun]
    show (lowerFunctions taken fs k' >>= fun gs => Pure.pure (g :: gs)) = _
    rw [hgs]
    rfl

end

/-! ### Units -/

section

variable {u : Structured.CodeUnit} {l : CodeUnit} {ok : String → Prop}

/-- Confined units can be lowered. -/
lemma ofStructured_succeeds (hc : ∀ f ∈ u.functions, f.Confined ok) :
    ∃ l, CodeUnit.ofStructured u = .ok l := by
  obtain ⟨gs, hgs⟩ := lowerFunctions_succeeds (Std.TreeSet.ofList u.temps) (k := 0) hc
  exact ⟨{ name := u.name, functions := gs }, by rw [CodeUnit.ofStructured, hgs]; rfl⟩

/-- The functions of a lowered unit. -/
lemma lowered_of_ofStructured (hc : ∀ f ∈ u.functions, f.Confined ok)
    (h : CodeUnit.ofStructured u = .ok l) :
    List.Forall₂ (Lowered (Std.TreeSet.ofList u.temps) ok) u.functions l.functions := by
  refine (flattens_of_ofStructured h).forall₂ fun f hf _ _ _ h => ?_
  refine lowered_of_flattens (hc f hf) (fun r hr => ?_) h
  exact Std.TreeSet.mem_ofList.2 (contains_iff_mem.2 (mem_flatMap.2 ⟨f, hf, hr⟩))

lemma marksOf_eq_labelsIn (code : List Stmt) :
    marksOf code = Structured.labelsIn (code.map Stmt.lift) := by
  induction code with
  | nil => rfl
  | cons s code ih =>
    rw [map_cons, Structured.labelsIn_cons, ← ih, ← marksOf_single s]
    exact marksOf_append [s] code

lemma marks_body_lift (g : Function) : marks (itemsOf g.lift.body) = marksOf g.body := by
  rw [Function.lift, itemsOf, marks_append, marksOf]
  simp [marks]

lemma Lowered.shape (h : Lowered taken ok f g) : marksOf g.body = marks (itemsOf f.body) ∧
      ∃ k, ∀ s ∈ g.body, s.Fits ok (· ∈ marks (itemsOf f.body)) (Known taken k) := by
  obtain ⟨ss, k, codes, k', hbody, hcode, hl⟩ := h.body
  have hs := shape_stmts hl
  rw [← hcode] at hs
  refine ⟨?_, k', hs.fits⟩
  rw [hs.labels, hbody, itemsOf, marks_append]
  simp [marks]

lemma Lowered.namesOf (h : Lowered taken ok f g) :
    Linear.Program.namesOf g.lift = Linear.Program.namesOf f := by
  rw [Linear.Program.namesOf, Linear.Program.namesOf, marks_body_lift, h.shape.1]
  exact congrArg (· :: _) h.name

lemma Lowered.confinedAll (h : Lowered taken ok f g) : Structured.Stmt.ConfinedAll ok []
      (Structured.labelsIn (g.body.map Stmt.lift)) (g.body.map Stmt.lift) := by
  obtain ⟨hlabels, k, hfits⟩ := h.shape
  refine Structured.Stmt.confinedAll_iff.2 fun s hs => ?_
  obtain ⟨t, ht, rfl⟩ := mem_map.1 hs
  exact (hfits t ht).confined fun l hl => by rwa [← marksOf_eq_labelsIn, hlabels]

lemma Lowered.confined (h : Lowered taken ok f g) : g.lift.Confined ok :=
  ⟨g.body.map Stmt.lift, [], [], by simp [Function.lift], h.confinedAll, .inl ⟨rfl, rfl⟩⟩

lemma map_eq_of_forall₂ {α β γ : Type} {R : α → β → Prop} {a : α → γ} {b : β → γ} {xs : List α}
    {ys : List β} (h : List.Forall₂ R xs ys) (hab : ∀ {x y}, R x y → b y = a x) :
    ys.map b = xs.map a := by
  induction h with
  | nil => rfl
  | cons hxy _ ih => rw [map_cons, map_cons, hab hxy, ih]

lemma exists_of_forall₂ {α β : Type} {R : α → β → Prop} {xs : List α} {ys : List β} {y : β}
    (h : List.Forall₂ R xs ys) (hy : y ∈ ys) : ∃ x ∈ xs, R x y := by
  induction h with
  | nil => cases hy
  | @cons a b xs ys hab _ ih =>
    rcases mem_cons.1 hy with rfl | hy
    · exact ⟨a, mem_cons_self, hab⟩
    · obtain ⟨x, hx, hxy⟩ := ih hy
      exact ⟨x, mem_cons_of_mem a hx, hxy⟩

section

variable (hl : List.Forall₂ (Lowered (Std.TreeSet.ofList u.temps) ok) u.functions l.functions)

include hl

/-- A lowered unit defines the names of the unit it comes from. -/
lemma unitNames_lift : unitNames l.lift = unitNames u := by
  have hmap := map_eq_of_forall₂ (b := fun g : Function => namesOf g.lift) (a := namesOf) hl
    Lowered.namesOf
  rw [unitNames, unitNames, flatMap_def, flatMap_def, ← hmap, CodeUnit.lift, map_map]
  rfl

lemma names_lift : l.lift.functions.map (·.name) = u.functions.map (·.name) := by
  have hmap := map_eq_of_forall₂ (b := fun g : Function => g.name)
    (a := fun f : Structured.Function => f.name) hl Lowered.name
  rw [← hmap, CodeUnit.lift, map_map]
  rfl

lemma callable_lift (f : String) : Callable l.lift f ↔ Callable u f := by
  have hlook : ∀ v : Structured.CodeUnit,
      (v.lookup f).isSome = true ↔ f ∈ v.functions.map (·.name) := by
    intro v
    simp [Structured.CodeUnit.lookup, List.find?_isSome]
  rw [Callable, Callable, hlook, hlook, names_lift hl, unitNames_lift hl]

end

/-- A lowered unit is confined. -/
lemma confined_lift (hc : ∀ f ∈ u.functions, f.Confined (Callable u))
    (h : CodeUnit.ofStructured u = .ok l) :
    ∀ g ∈ l.lift.functions, g.Confined (Callable l.lift) := by
  have hl := lowered_of_ofStructured hc h
  have heq : Callable l.lift = Callable u := funext fun f => propext (callable_lift hl f)
  rw [heq]
  intro g hg
  obtain ⟨g', hg', rfl⟩ := mem_map.1 hg
  obtain ⟨f, -, hfg⟩ := exists_of_forall₂ hl hg'
  exact hfg.confined

end

end TreeMachine.Flat
