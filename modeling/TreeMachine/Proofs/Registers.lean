import TreeMachine.Machine.Basic
import TreeMachine.Proofs.Supply

/-!
# The registers of a function

The code of a function names the registers that were taken for it while it was compiled, and
those of arguments and results. They are all different, unless a declared name looks like a
numbered one.
-/

open List

namespace TreeMachine.Structured

open TreeMachine.Tree

namespace Compile

variable {c c' : Compiling} {moves : List Stmt}

/-! ### Functions -/

/-- The names that are taken for registers while a function is compiled, when the last number
taken before it is `n`. -/
def registersFrom (n : Nat) (f : Tree.Function) : List String :=
  Supply.names { temps := n, used := [], bound := [] } (functionDraws f)

lemma ParamsOf.temps (h : ParamsOf scope i ps c regs moves c') : ∀ r ∈ Stmt.tempsAll moves,
      Recorded c.supply (ps.flatMap fun p => declDraws (some scope) p.name) r ∨
        ∃ n, r = argReg n := by
  induction h with
  | nil => simp [Stmt.tempsAll]
  | @cons i p ps c sym regs moves c' hsym _ ih =>
    intro r hr
    rw [flatMap_cons, declDraws_some hsym]
    simp only [Stmt.tempsAll, Stmt.temps, Expr.temps, mem_append, mem_singleton] at hr
    rcases hr with (rfl | rfl) | hr
    · exact .inl (.inr mem_cons_self)
    · exact .inr ⟨i, rfl⟩
    · exact (ih r hr).imp_left fun h => @Recorded.right _ [.decl sym] _ _ h

/-- The code of a function names the registers that were taken for it, and those of arguments and
results. -/
lemma FunctionOf.temps (h : FunctionOf outer f c g c') :
    ∀ r ∈ g.body.temps, r ∈ registersFrom c.temps f ∨ ∃ n, r = argReg n ∨ r = retReg n := by
  obtain ⟨hscope, hbody, hparams, hss⟩ := h
  intro r hr
  have hnone : ∀ {ds}, Recorded { temps := c.temps, used := [], bound := [] } ds r →
      r ∈ Supply.names { temps := c.temps, used := [], bound := [] } ds := by
    rintro ds (hr | hr)
    · cases hr
    · exact hr
  have hending : ∀ {trap hasResults traps}, r ∉ Stmt.tempsAll (ending trap hasResults traps) := by
    intro trap hasResults traps
    cases hasResults <;> cases traps <;>
      simp [ending, Stmt.tempsAll, Stmt.temps, Expr.temps, Expr.tempsAll]
  simp only [Stmt.temps, tempsAll_append, Stmt.tempsAll, List.append_nil, mem_append,
    hending, or_false] at hr
  have hsupply := hparams.supply
  rw [registersFrom, functionDraws, hscope, hbody]
  rcases hr with hr | hr
  · rcases hparams.temps r hr with h | ⟨n, rfl⟩
    · exact .inl (hnone (h.left _))
    · exact .inr ⟨n, .inl rfl⟩
  · have hlisted : Listed { temps := c.temps, used := [], bound := [] } := by simp [Listed]
    rcases (named_stmts hss).may (hsupply ▸ hlisted.drawAll _) r hr with h | ⟨n, rfl⟩
    · exact .inl (hnone (hsupply ▸ h).right)
    · exact .inr ⟨n, .inr rfl⟩

end Compile

/-! ### Programs -/

open Compile

/-- The registers of a function are told apart: `c'` is the compiler's state after it. -/
structure Apart (f : Tree.Function) (c : Compiling) (g : Function) (c' : Compiling) : Prop where
  /-- In the end each declaration has the register that was taken for it. -/
  bound : ∀ {i : Nat} {sym : Symbol}, (functionDraws f)[i]? = some (.decl sym) →
    c'.bound.lookup sym.id = (registersFrom c.temps f)[i]?
  nodup : (registersFrom c.temps f).Nodup
  ne_convention : ∀ r ∈ registersFrom c.temps f, ∀ n, r ≠ argReg n ∧ r ≠ retReg n
  /-- The code names these registers only, and those of arguments and results. -/
  named : ∀ r ∈ g.body.temps, r ∈ registersFrom c.temps f ∨ ∃ n, r = argReg n ∨ r = retReg n

lemma apart_of_functionOf (h : FunctionOf outer f c g c') (hres : f.Resolved callee n n')
    (hplain : ∀ name ∈ declaredNames f, Plain name) : Apart f c g c' := by
  have hsettled : Supply.Settled { temps := c.temps, used := [], bound := [] } := by
    simp [Supply.Settled]
  obtain ⟨hfree, hnodup⟩ := hsettled.names_free fun sym hsym =>
    hplain sym.name (mem_declaredNames hsym)
  refine ⟨fun {i sym} hi => ?_, hnodup, fun r hr n => ⟨?_, ?_⟩, h.temps⟩
  · have hbound : c'.bound = _ := congrArg Supply.bound h.supply
    rw [hbound]
    exact Supply.lookup_of_draw (nodup_ids hres) hi
  · rintro rfl
    simpa [isConventionReg_argReg] using (hfree _ hr).1
  · rintro rfl
    simpa [isConventionReg_retReg] using (hfree _ hr).1

lemma forall₂_of_functions (h : functions outer fs c = .ok gs)
    (hR : ∀ f ∈ fs, ∀ {c g c'}, function outer f c = .ok (g, c') → R f g) :
    List.Forall₂ R fs gs := by
  induction fs generalizing c gs with
  | nil =>
    cases h
    exact .nil
  | cons f fs ih =>
    obtain ⟨⟨g, c1⟩, hw, h⟩ := Except.bind_eq_ok h
    obtain ⟨gs, hgs, h⟩ := Except.bind_eq_ok h
    cases h
    exact .cons (hR f mem_cons_self (Error.of_wrap_eq_ok hw))
      (ih hgs fun f hf => hR f (mem_cons_of_mem _ hf))

lemma resolved_of_mem (h : Tree.Functions.Resolved callee n fs) (hf : f ∈ fs) :
    ∃ m m', f.Resolved callee m m' := by
  induction h with
  | nil => cases hf
  | cons hg _ ih =>
    rcases mem_cons.1 hf with rfl | hf
    · exact ⟨_, _, hg⟩
    · exact ih hf

lemma Supply.names_ne_empty {s : Supply} (h : ∀ sym, .decl sym ∈ ds → sym.name ≠ "") :
    "" ∉ s.names ds := by
  induction ds generalizing s with
  | nil => exact not_mem_nil
  | cons d ds ih =>
    rw [Supply.names, mem_cons, not_or]
    refine ⟨fun he => ?_, ih fun sym hsym => h sym (mem_cons_of_mem _ hsym)⟩
    cases d with
    | temp hint => exact numbered_ne_empty _ _ he.symm
    | decl sym =>
      rw [Supply.name] at he
      split at he
      · exact numbered_ne_empty _ _ he.symm
      · exact h sym mem_cons_self he.symm

lemma temps_ne_empty (hu : CodeUnit.ofTree q = .ok u)
    (hnames : ∀ f ∈ q.functions, "" ∉ declaredNames f) : "" ∉ u.temps := by
  intro hmem
  obtain ⟨g, hg, hr⟩ := mem_flatMap.1 hmem
  obtain ⟨scope, -, hfs⟩ := functionsOf_of_ofTree hu
  obtain ⟨f, hf, c, c', hfg⟩ := hfs.exists_of_mem hg
  rcases hfg.temps "" hr with hreg | ⟨n, harg | hret⟩
  · refine Supply.names_ne_empty (fun sym hsym he => hnames f hf ?_) hreg
    exact he ▸ mem_declaredNames hsym
  · have := congrArg String.toList harg
    rw [toList_argReg] at this
    cases this
  · have := congrArg String.toList hret
    rw [toList_retReg] at this
    cases this

/-- The registers of every function of a program are told apart, if no declared name has the form
of a numbered one. -/
theorem registers_apart {p q : Tree.Program} {u : CodeUnit} (hq : p.resolve = .ok q)
    (hu : CodeUnit.ofTree q = .ok u)
    (hplain : ∀ f ∈ q.functions, ∀ name ∈ Compile.declaredNames f, Plain name) :
    ∃ scope, q.scope = some scope ∧
      List.Forall₂ (fun f g => ∃ c c',
        Compile.function [scope, Scope.outermost] f c = .ok (g, c') ∧ Apart f c g c')
        q.functions u.functions := by
  obtain ⟨n, hres⟩ : ∃ n, Tree.Functions.Resolved (fun _ => True) n q.functions :=
    Tree.resolved_of_resolve hq fun _ _ => trivial
  unfold CodeUnit.ofTree at hu
  cases hs : q.scope with
  | none => rw [hs] at hu; cases hu
  | some scope =>
    simp only [hs] at hu
    obtain ⟨gs, hgs, hu⟩ := Except.bind_eq_ok hu
    cases hu
    refine ⟨scope, rfl, forall₂_of_functions hgs fun f hf {c g c'} hg => ?_⟩
    obtain ⟨m, m', hf'⟩ := resolved_of_mem hres hf
    exact ⟨c, c', hg, apart_of_functionOf (functionOf_of_function hg) hf' (hplain f hf)⟩

/-- A program that declares a variable, and a variable of the same name in a block, after one with
a given name. -/
def shadowing (name : String) : Tree.Program where
  name := "shadowing"
  functions := [{
    name := "main"
    returns := [.int]
    body := some {
      stmts := [
        .var {} name (some .int) (some (.int {} 5)),
        .var {} "x" (some .int) (some (.int {} 1)),
        .block {} none [.var {} "x" (some .int) (some (.int {} 7))],
        .ret {} [.ident { name }]] } }]

theorem registers_apart_shadowing : ∃ q u scope, (shadowing "y").resolve = .ok q ∧
    CodeUnit.ofTree q = .ok u ∧ q.scope = some scope ∧
      List.Forall₂ (fun f g => ∃ c c',
        Compile.function [scope, Scope.outermost] f c = .ok (g, c') ∧ Apart f c g c')
        q.functions u.functions := by
  have hrun : ((shadowing "y").resolve.toOption.bind fun q =>
    (CodeUnit.ofTree q).toOption.map fun _ => decide (∀ f ∈ q.functions,
      ∀ name ∈ declaredNames f, Pointless name)) = some true := by
    decide +kernel
  obtain ⟨q, hq, hrun⟩ := Except.bind_eq_some.1 hrun
  obtain ⟨u, hu, hnames⟩ := Except.map_eq_some.1 hrun
  obtain ⟨scope, hscope, happart⟩ := registers_apart hq hu fun f hf name hname =>
    (of_decide_eq_true hnames f hf name hname).plain
  exact ⟨q, u, scope, hq, hu, hscope, happart⟩

/-- Here the variable of the block gets the name that the first variable has, and overwrites
it. -/
theorem register_shared : ∃ q u m, (shadowing "x.1").resolve = .ok q ∧ CodeUnit.ofTree q = .ok u ∧
    Machine.ofUnit? (some u) {} = .ok m ∧
    (q.functions.map (registersFrom 0)) = [["x.1", "x", "x.1"]] ∧
    (m.callAll 100 "main" []).map (fun r => r.1.toOption) = some (some [7]) := by
  have hrun : ((shadowing "x.1").resolve.toOption.bind fun q =>
    (CodeUnit.ofTree q).toOption.bind fun u =>
    (Machine.ofUnit? (some u) {}).toOption.map fun m =>
      decide (q.functions.map (registersFrom 0) = [["x.1", "x", "x.1"]] ∧
        (m.callAll 100 "main" []).map (fun r => r.1.toOption) = some (some [7]))) =
    some true := by
    decide +kernel
  simp only [Except.bind_eq_some, Except.map_eq_some] at hrun
  obtain ⟨q, hq, u, hu, m, hm, hrun⟩ := hrun
  exact ⟨q, u, m, hq, hu, hm, of_decide_eq_true hrun⟩

end TreeMachine.Structured
