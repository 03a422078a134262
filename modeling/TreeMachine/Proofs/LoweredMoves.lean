import TreeMachine.Proofs.FreshRegisters

/-!
# Moves to registers in lowered code

A move to a register may stand anywhere in structured code: in a statement inside of an operand, or
with its target below statements. Lowering keeps these moves and their order, and adds those that
save values or receive results of calls, to registers of its own.

One move is lost. A call whose result goes to a register has that register as its destination, and a
destination without a name stands for none. So the result of a call is not stored if it is moved to
the register whose name is empty.
-/

open List

namespace TreeMachine.Structured

/-- The register that a node assigns by a move. -/
def Node.assigned? : Node → Option String
  | .stmt (.move target _) => target.register?
  | _ => none

/-- The register that a node assigns by a move, leaving out the result of a call that goes to the
register without a name. -/
def Node.stored? : Node → Option String
  | .stmt (.move target (.call _ _)) => target.register?.filter (· ≠ "")
  | n => n.assigned?

@[simp] lemma Node.stored?_expr (x : Expr) : Node.stored? (.expr x) = none := rfl

lemma Node.stored?_eq {n : Node} (h : n.assigned? ≠ some "") : n.stored? = n.assigned? := by
  unfold Node.stored?
  split
  next target _ _ =>
    simp only [Node.assigned?] at h ⊢
    cases hr : target.register? with
    | none => rfl
    | some r =>
      have hne : r ≠ "" := fun he => h (by rw [hr, he])
      simp [Option.filter, hne]
  next => rfl

end TreeMachine.Structured

namespace TreeMachine.Flat

open Linear
open Structured

/-! ### Flat code -/

/-- The registers that the moves among items assign, in order. -/
def assigned (is : List Item) : List String :=
  (nodes is).filterMap Node.assigned?

/-- The registers that the moves among items assign, without results that are lost. -/
def stored (is : List Item) : List String :=
  (nodes is).filterMap Node.stored?

section

variable (is js : List Item)

@[simp] lemma assigned_nil : assigned [] = [] := rfl

@[simp] lemma assigned_append : assigned (is ++ js) = assigned is ++ assigned js := by
  simp [assigned]

@[simp] lemma assigned_node (n : Node) :
    assigned (.node n :: is) = n.assigned?.toList ++ assigned is := by
  cases h : n.assigned? <;> simp [assigned, nodes, h]

@[simp] lemma stored_nil : stored [] = [] := rfl

@[simp] lemma stored_append : stored (is ++ js) = stored is ++ stored js := by
  simp [stored]

@[simp] lemma stored_mark (l : String) : stored (.mark l :: is) = stored is := rfl

@[simp] lemma stored_node (n : Node) : stored (.node n :: is) = n.stored?.toList ++ stored is := by
  cases h : n.stored? <;> simp [stored, nodes, h]

variable {is} in
lemma stored_eq_assigned (h : "" ∉ assigned is) : stored is = assigned is :=
  filterMap_congr fun n hn => Node.stored?_eq fun he => h (mem_filterMap.2 ⟨n, hn, he⟩)

end

lemma assigned_lift (x : Expr) : assigned (itemsOfExpr x.lift) = [] := by
  induction x with
  | const v => rfl
  | temp r => rfl
  | name l => rfl
  | mem addr ih => simp [Expr.lift, itemsOfExpr, ih, Node.assigned?]
  | unop op x ih => simp [Expr.lift, itemsOfExpr, ih, Node.assigned?]
  | binop op l r ihl ihr => simp [Expr.lift, itemsOfExpr, ihl, ihr, Node.assigned?]

lemma assigned_liftAll (xs : List Expr) : assigned (itemsOfExprs (xs.map Expr.lift)) = [] := by
  induction xs with
  | nil => rfl
  | cons x xs ih => simp [itemsOfExprs, assigned_lift, ih]

lemma assigned_stmt (s : Stmt) : assigned (itemsOf s.lift) = s.dest?.toList := by
  cases s with
  | call returns dest f xs =>
    by_cases hd : dest.isEmpty = true
    · simp [Stmt.lift, Stmt.dest?, hd, itemsOf, assigned_lift, assigned_liftAll, Node.assigned?]
    · simp [Stmt.lift, Stmt.dest?, hd, itemsOf, itemsOfExpr, assigned_lift, assigned_liftAll,
        Node.assigned?, Structured.Expr.register?]
  | label l => rfl
  | _ =>
    simp [Stmt.lift, Stmt.dest?, itemsOf, itemsOfExpr, assigned_lift, assigned_liftAll,
      Node.assigned?, Structured.Expr.register?]

lemma dests_cons (s : Stmt) (code : List Stmt) : dests (s :: code) = s.dest?.toList ++
    dests code := by
  cases h : s.dest? <;> simp [dests, h]

lemma assigned_body (g : Function) : assigned (itemsOf g.lift.body) = dests g.body := by
  have hall : ∀ code : List Stmt, assigned (itemsOfAll (code.map Stmt.lift)) = dests code := by
    intro code
    induction code with
    | nil => rfl
    | cons s code ih => rw [map_cons, itemsOfAll, assigned_append, assigned_stmt, ih, dests_cons]
  simp [Function.lift, itemsOf, hall, Node.assigned?]

/-! ### Lowered code -/

/-- The registers among those that code assigns which the unit names. -/
def kept (taken : Taken) (code : List Stmt) : List String :=
  (dests code).filter (· ∈ taken)

section

variable {taken : Taken} {T : List String}

@[simp] lemma kept_nil : kept taken [] = [] := rfl

@[simp] lemma kept_append (code code' : List Stmt) :
    kept taken (code ++ code') = kept taken code ++ kept taken code' := by
  simp [kept, dests_append]

lemma kept_single_of_not (h : ∀ r, s.dest? = some r → r ∉ taken) : kept taken [s] = [] := by
  cases hd : s.dest? with
  | none => simp [kept, dests, hd]
  | some r => simp [kept, dests, hd, h r hd]

lemma kept_single (hd : s.dest? = some r) (hr : r ∈ taken) : kept taken [s] = [r] := by
  simp [kept, dests, hd, hr]

lemma Saves.kept (h : Saves taken xs k moves ys k') : Flat.kept taken moves = [] := by
  induction h with
  | nil => rfl
  | keep _ _ ih => exact ih
  | @save x xs k reg k1 moves ys k' _ hreg _ ih =>
    rw [← singleton_append, kept_append, ih, kept_single_of_not]
    · rfl
    · rintro r ⟨⟩
      exact hreg.free

lemma Joins.kept (h : Joins taken xs k pre moves zs k') : Flat.kept taken moves = [] := by
  cases h with
  | plain => rfl
  | after _ h => exact h.kept

lemma Ends.kept (h : Ends T t s) (hT : ∀ r ∈ T, r ∈ taken) :
    Flat.kept taken [s] = (Node.stored? (.stmt t)).toList := by
  cases h with
  | @moveTemp target e r x hr hmem hne =>
    rw [kept_single rfl (hT r hmem)]
    cases e with
    | call callee args => exact absurd rfl (hne callee args)
    | _ => simp [Node.stored?, Node.assigned?, hr]
  | @moveCall target e es r f xs hr hmem =>
    by_cases hne : r = ""
    · simp [Flat.kept, dests, Stmt.dest?, Node.stored?, hr, hne, Option.filter]
    · rw [kept_single (by simp [Stmt.dest?, hne]) (hT r hmem)]
      simp [Node.stored?, hr, hne, Option.filter]
  | @moveMem target e x y hr =>
    cases e <;>
      simp [Flat.kept, dests, Stmt.dest?, Node.stored?, Node.assigned?, hr]
  | _ => rfl

/-- The registers of the unit that lowered code assigns. -/
lemma Assembles.kept (h : Assembles taken T is k code xs k') (hT : ∀ r ∈ T, r ∈ taken) :
    Flat.kept taken code = stored is := by
  induction h with
  | nil | label | const | name | temp _ => rfl
  | @node is n js _ _ _ _ hn _ ih =>
    have hnode : n.stored? = none := by
      cases n with
      | expr x => rfl
      | stmt s => cases s <;> first | rfl | cases hn
    simp [ih, hnode]
  | value _ _ _ ih | drop _ ih => exact ih
  | append _ _ ih ih' => simp [ih, ih']
  | join _ _ hj ih ih' => simp [ih, ih', hj.kept]
  | result hd _ ih =>
    rw [kept_append, ih, kept_single_of_not fun r hr => dest?_call hr ▸ hd.free, List.append_nil]
  | stmt s hs _ ih => simp [ih, hs.kept hT]

end

/-! ### Units -/

lemma FlattensFunctions.kept (h : FlattensFunctions taken fs k gs)
    (ht : ∀ f ∈ fs, ∀ r ∈ f.body.temps, r ∈ taken) :
    List.Forall₂ (fun f g => g.name = f.name ∧ kept taken g.body = stored (itemsOf f.body)) fs gs :=
  h.forall₂ fun f hf _ _ _ hbody => ⟨rfl, (assembles_stmt hbody fun _ hr => hr).kept (ht f hf)⟩

/-- Lowering keeps the moves to registers of every function, in their order, and adds only such that
assign registers of its own. It loses the results of calls that go to the register without a name,
and no others: nothing is lost in a function that does not assign this register. -/
theorem moves_lowered {u : Structured.CodeUnit} {l : CodeUnit}
    (h : CodeUnit.ofStructured u = .ok l) :
    List.Forall₂ (fun f g => g.name = f.name ∧
      (assigned (itemsOf g.lift.body)).filter (· ∈ u.temps) = stored (itemsOf f.body) ∧
      ("" ∉ assigned (itemsOf f.body) →
        (assigned (itemsOf g.lift.body)).filter (· ∈ u.temps) = assigned (itemsOf f.body)))
      u.functions l.functions := by
  have hmem : ∀ r, r ∈ Std.TreeSet.ofList u.temps ↔ r ∈ u.temps := fun r => by
    simp [Std.TreeSet.mem_ofList]
  have hnamed : ∀ f ∈ u.functions, ∀ r ∈ f.body.temps, r ∈ Std.TreeSet.ofList u.temps :=
    fun f hf r hr => (hmem r).2 (mem_flatMap.2 ⟨f, hf, hr⟩)
  refine ((flattens_of_ofStructured h).kept hnamed).imp fun f g hfg => ?_
  have hstored : (assigned (itemsOf g.lift.body)).filter (· ∈ u.temps) =
      stored (itemsOf f.body) := by
    rw [← hfg.2, assigned_body]
    simp only [kept, hmem]
  exact ⟨hfg.1, hstored, fun hname => hstored.trans (stored_eq_assigned hname)⟩

/-- Moves in a statement of an operand, of the result of a call, and to a target below a statement.
-/
def scattered : Structured.CodeUnit where
  name := "scattered"
  functions := [{
    name := "main"
    body := .seq [
      .move (.eseq (.move (.temp "a") (.const 1)) (.temp "b"))
        (.binop .add (.temp "a") (.eseq (.move (.temp "a") (.call (.name "main") [])) (.temp "a"))),
      .move (.temp "c") (.call (.name "main") [.temp "b"])] }]

theorem moves_lowered_scattered : ∃ l, CodeUnit.ofStructured scattered = .ok l ∧
    l.functions.map (fun g => assigned (itemsOf g.lift.body)) = [["a", "lt.1", "a", "b", "c"]] ∧
    l.functions.map (fun g => (assigned (itemsOf g.lift.body)).filter (· ∈ scattered.temps)) =
      scattered.functions.map fun f => assigned (itemsOf f.body) := by
  have hrun : (CodeUnit.ofStructured scattered).toOption.map
      (fun l => l.functions.map fun g => assigned (itemsOf g.lift.body)) =
        some [["a", "lt.1", "a", "b", "c"]] := by
    decide +kernel
  obtain ⟨l, hl, hregs⟩ := Except.map_eq_some.1 hrun
  obtain ⟨g, gs, ⟨-, -, hg⟩, hgs, hfuncs⟩ := forall₂_cons_left_iff.1 (moves_lowered hl)
  rw [forall₂_nil_left_iff] at hgs
  refine ⟨l, hl, hregs, ?_⟩
  rw [hfuncs, hgs, map_singleton, hg (by decide)]
  rfl

/-- A function that moves the result of a call to the register without a name, and returns it. -/
def nameless : Structured.CodeUnit where
  name := "nameless"
  functions := [
    { name := "five", body := .ret [.const 5] },
    { name := "main", body := .seq [.move (.temp "") (.call (.name "five") []), .ret [.temp ""]] }]

/-- The flat form of this function does not assign the register. -/
theorem result_dropped : ∃ l, CodeUnit.ofStructured nameless = .ok l ∧ "" ∈ nameless.temps ∧
    nameless.functions.map (fun f => assigned (itemsOf f.body)) = [[], [""]] ∧
    l.functions.map (fun g => assigned (itemsOf g.lift.body)) = [[], []] := by
  have hrun : (CodeUnit.ofStructured nameless).toOption.map
      (fun l => l.functions.map fun g => assigned (itemsOf g.lift.body)) = some [[], []] := by
    decide +kernel
  obtain ⟨l, hl, hregs⟩ := Except.map_eq_some.1 hrun
  exact ⟨l, hl, by decide, by decide, hregs⟩

end TreeMachine.Flat
