import TreeMachine.Proofs.Bounds

/-!
# The traps of functions

A function with array accesses ends with its trap: a label, and a call of what reports an
index. The trap is there in structured and in lowered code, just if something goes to
it.
-/

open List

namespace TreeMachine.Structured

open Linear

/-- A function ends with a trap that calls a routine. -/
def Function.Trapped (f : Function) (routine : String) : Prop :=
  ∃ ss, f.body = .seq (ss ++ trapEnd f.name routine)

lemma Compile.FunctionOf.trapped (h : Compile.FunctionOf outer f c g c')
    (hm : trapOf g.name ∈ marks (itemsOf g.body)) : g.Trapped "_outOfBounds" := by
  obtain @⟨params, scope, span, ss, c, regs, moves, c1, body, _, -, -, hp, hs⟩ := h
  have hmade := Compile.made_stmts hs
  obtain ⟨hmoves, -⟩ := hp.marks
  cases ht : c'.traps with
  | true =>
    refine ⟨moves ++ [.seq body] ++ [.ret []], ?_⟩
    simp [Compile.ending, trapEnd, trapOf]
  | false =>
    have hmem : trapOf f.name ∈ marks (itemsOfAll body) := by
      cases hr : f.returns.isEmpty <;>
        simpa [itemsOf, itemsOfAll, itemsOfAll_append, marks_append, hmoves, ht, hr,
          Compile.ending, marks, itemsOfExprs] using hm
    obtain ⟨hint, n, heq, -⟩ := hmade.number _ hmem
    exact absurd heq.symm (Compile.numbered_ne_trapOf hint f.name n)

end TreeMachine.Structured

namespace TreeMachine.Flat

section

variable {taken : Taken} {ok lab : String → Prop}

lemma LowersStmts.append (h : LowersStmts taken ok lab (ss ++ ts) k codes k') :
    ∃ codes1 codes2 k1, codes = codes1 ++ codes2 ∧ LowersStmts taken ok lab ss k codes1 k1 ∧
      LowersStmts taken ok lab ts k1 codes2 k' := by
  induction ss generalizing k codes with
  | nil => exact ⟨[], codes, k, rfl, .nil, h⟩
  | cons s ss ih =>
    cases h with
    | cons hs hss =>
      obtain ⟨codes1, codes2, k1, rfl, h1, h2⟩ := ih hss
      exact ⟨_ :: codes1, codes2, k1, rfl, .cons hs h1, h2⟩

lemma codes_of_trapEnd (h : LowersStmts taken ok lab (Structured.trapEnd f g) k codes k') :
    codes = [[.label (Structured.trapOf f)], [.call 0 "" (.name g) []]] := by
  cases h with
  | cons hlabel h =>
    cases hlabel
    cases h with
    | cons hexp h =>
      cases h
      cases hexp with
      | expCall _ hargs =>
        cases hargs
        rfl
      | drop hne _ _ => exact absurd rfl (hne _ _)
      | exp hne _ _ => exact absurd rfl (hne _ _)

end

end TreeMachine.Flat

namespace TreeMachine.Machine

open Structured
open Linear

section

variable {M : Setup} {r : Range}

lemma TrapAt.of_placed
    (hp : Placed M.program b (.mark (trapOf r.name) :: .node (.expr (.name "_outOfBounds")) ::
      .node n :: is)) (hn : IsCall n "_outOfBounds" 0) (hlo : r.start ≤ b) (hhi : b + 1 < r.stop) :
    TrapAt M r b :=
  ⟨hp.1, hlo, hhi, hp.2.1, ⟨n, hp.2.2.1, hn⟩⟩

/-- The trap of a structured function. -/
lemma trapAt_of_trapped (hh : Program.Holds M.program g r) (ht : g.Trapped "_outOfBounds") :
    ∃ b, TrapAt M r b := by
  obtain ⟨ss, hbody⟩ := ht
  have hplaced := hh.placed
  have hstop := hh.stop
  rw [hbody, itemsOf, itemsOfAll_append, append_assoc] at hplaced hstop
  rw [extent_append] at hstop
  refine ⟨_, .of_placed (hh.name ▸ hplaced.append.2) (.inl ⟨[], rfl, rfl⟩)
    (Nat.le_add_right _ _) ?_⟩
  simp only [trapEnd, itemsOfAll, itemsOf, itemsOfExpr, itemsOfExprs, extent,
    List.append_nil, cons_append, nil_append] at hstop
  omega

/-- The trap of a lowered function. -/
lemma trapAt_of_lowered (hfg : Flat.Lowered taken ok f g) (hh : Program.Holds M.program g.lift r)
    (ht : f.Trapped "_outOfBounds") : ∃ b, TrapAt M r b := by
  obtain ⟨ss, hbody⟩ := ht
  obtain ⟨ss', k, codes, k', hbody', hcode, hl⟩ := hfg.body
  obtain rfl : ss' = ss ++ trapEnd f.name "_outOfBounds" := by
    rw [hbody] at hbody'
    exact (Stmt.seq.inj hbody').symm
  obtain ⟨codes1, codes2, k1, rfl, -, hl2⟩ := Flat.LowersStmts.append hl
  obtain rfl : codes2 = [[.label (trapOf f.name)], [.call 0 "" (.name "_outOfBounds") []]] :=
    Flat.codes_of_trapEnd hl2
  have hplaced := hh.placed
  have hstop := hh.stop
  have hname : r.name = f.name := hh.name.trans hfg.name
  rw [Flat.Function.lift, hcode] at hplaced hstop
  simp only [itemsOf, flatten_append, map_append, itemsOfAll_append, append_assoc] at hplaced hstop
  rw [extent_append] at hstop
  refine ⟨_, .of_placed (hname ▸ hplaced.append.2) (.inr ⟨0, [], rfl, rfl⟩)
    (Nat.le_add_right _ _) ?_⟩
  change r.stop = r.start + (_ + 3) at hstop
  omega

end

section

variable {p q : Tree.Program} {u : CodeUnit} {M : Setup}

lemma lookup_eq_none_iff : u.lookup name = none ↔ name ∉ u.functions.map (·.name) := by
  simp [CodeUnit.lookup]

lemma labels_of_callable (hp : Program.ofUnit u = .ok M.program) (hcall : Callable u name)
    (hnone : u.lookup name = none) : M.program.labels[name]? = none := by
  have hfree := (hcall.resolve_left (by simp [hnone])).2
  rw [← Program.mem_labels_iff hp, Program.mem_labels_iff_isSome] at hfree
  simpa using hfree

/-- The trap of a function of a resolved program whose code names it. -/
lemma trapped_of_ofTree (hq : p.resolve = .ok q) (hu : CodeUnit.ofTree q = .ok u)
    (hg : g ∈ u.functions) (hm : trapOf g.name ∈ marks (itemsOf g.body)) :
    g.Trapped "_outOfBounds" := by
  obtain ⟨scope, -, hfs⟩ := Compile.functionsOf_of_ofTree hu
  obtain ⟨n, hr⟩ := Tree.resolved_of_resolve hq fun _ _ => trivial
  obtain ⟨f, -, c, c', n, n', hf, -⟩ := hfs.mem hr hg
  exact hf.trapped hm

end

end TreeMachine.Machine
