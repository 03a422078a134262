import TreeMachine.Proofs.CompiledStmts
import TreeMachine.Proofs.Control
import TreeMachine.Proofs.OuterCalls
import TreeMachine.Proofs.Safety

/-!
# Compiled programs do what trees mean

The code of a function gives parameters their arguments, runs the body, and reports an index
that is out of bounds at its end. So by induction on the budget all calls of a program's code do
what calls of the tree mean, and the machine follows them.
-/

open List

namespace TreeMachine.Structured

open TreeMachine.Tree
open Compile (FunctionOf FunctionsOf ParamsOf StmtsOf ending labelsIn_ending declDraws drawsAll
  functionDraws
  registerFor)

/-! ### Parameters -/

/-- The registers of arguments from the `i`-th on have the arguments. -/
def HasArgs (i : Nat) (args : List Int32) (ρ : Env) : Prop :=
  ∀ j, ρ.regs.get? (argReg (i + j)) = args[j]?

section

variable {B : List (Nat × String)} {σ : Tree.Env} {ρ : Env}

lemma sim_param (cx : Context) (hB : OneToOne B) {id i reg} (hp : (id, reg) ∈ B) {args}
    (hargs : HasArgs i args ρ) (h : Same B σ ρ) :
    (∃ v σ' ρ', Tree.argument cx.mode args σ = .ok v σ' ∧
      (Stmt.move (.temp reg) (.temp (argReg i))).eval cx ρ = .ok () ρ' ∧
      HasArgs (i + 1) args.tail ρ' ∧
      Same B { σ' with cells := Function.update σ'.cells id (some v) } ρ') ∨
    ∃ σ', Tree.argument cx.mode args σ = .error .unset σ' := by
  have harg := hargs 0
  rw [add_zero] at harg
  have hne : ∀ j, argReg j ≠ reg := fun j => (hB.ne_argReg hp j).symm
  have htail : ∀ {regs : Registers} (v : Int32),
      (∀ j, regs.get? (argReg (i + 1 + j)) = args.tail[j]?) →
      ∀ j, (regs.set reg v).get? (argReg (i + 1 + j)) = args.tail[j]? := fun v hregs j => by
    rw [Registers.get?_set_of_ne _ _ (hne _), hregs]
  cases args with
  | cons v args =>
    refine .inl ⟨v, σ, { ρ with regs := ρ.regs.set reg v }, rfl, ?_, ?_, h.set hB hp v⟩
    · rw [Stmt.eval, bind_ok (eval_temp harg)]
      · rfl
      · simp
    · refine htail v fun j => ?_
      have := hargs (j + 1)
      rwa [← add_assoc, add_right_comm] at this
  | nil =>
    by_cases hcare : cx.mode.care = .fills
    · have hdraw := World.drawFiller_eq σ.world
      -- the generator is kept closed
      generalize σ.world.filler.nextInt32 = d at hdraw
      refine .inl ⟨d.1, { σ with world := σ.world.refill d.2 }, _, ?_, ?_, ?_,
        ((h.setWorld (σ.world.refill d.2)).setOther (fun _ hq => hB.ne_argReg hq i)
          d.1).set hB hp d.1⟩
      · simp only [Tree.argument, hcare, if_true, Tree.Eval.onWorld, hdraw]
      · have hread : (Expr.temp (argReg i)).eval cx ρ = .ok (.reg (argReg i) none) ρ := by
          rw [Expr.eval, Eval.readRegister, harg]
          simp [hcare]
        have hfill := fill_of_none harg (h.world ▸ hdraw)
        rw [Stmt.eval, bind_ok hread, Eval.take, if_pos hcare, bind_ok hfill, h.world]
        · rfl
        · simp
      · refine htail d.1 fun j => ?_
        have hne' : argReg (i + 1 + j) ≠ argReg i := fun he => by
          have := argReg_inj.1 he
          omega
        rw [Registers.get?_set_of_ne _ _ hne', add_assoc, hargs]
        rfl
    · exact .inr ⟨σ, by simp only [Tree.argument, hcare, if_false]; rfl⟩

lemma sim_params (cx : Context) (hB : OneToOne B) (h : ParamsOf scope i ps c regs moves c')
    (hA : Around B c (ps.flatMap fun p => declDraws (some scope) p.name)) (hargs : HasArgs i args ρ)
    (hs : Same B σ ρ) :
    (∃ σ' ρ', Tree.bindParams cx.mode scope ps args σ = .ok () σ' ∧ Same B σ' ρ' ∧ ∀ all n rest,
        Stmt.resume cx all n (moves ++ rest) ρ = Stmt.resume cx all n rest ρ') ∨
    ∃ σ', Tree.bindParams cx.mode scope ps args σ = .error .unset σ' := by
  induction h generalizing σ ρ args with
  | nil => exact .inl ⟨σ, ρ, rfl, hs, fun _ _ _ => rfl⟩
  | @cons i p ps c sym regs moves c' hsym _ ih =>
    rw [flatMap_cons, Compile.declDraws_some hsym] at hA
    rw [Tree.bindParams]
    rcases sim_param cx hB hA.mem hargs hs with
      ⟨v, σ1, ρ1, harg, hmove, hargs1, hs1⟩ | ⟨σ1, harg⟩
    · have hset : Tree.Eval.setCell sym.id v σ1 =
          .ok () { σ1 with cells := Function.update σ1.cells sym.id (some v) } := rfl
      rw [bind_ok harg, declared_of_find? hsym, pure_bind, bind_ok hset]
      rcases ih (hA.right (Compile.supply_declared c sym)) hargs1 hs1 with
        ⟨σ', ρ', hbind, hs', hresume⟩ | hunset
      · refine .inl ⟨σ', ρ', hbind, hs', fun all n rest => ?_⟩
        rw [cons_append, resume_ok hmove, hresume]
      · exact .inr hunset
    · exact .inr ⟨σ1, bind_error harg⟩

end

/-! ### Functions -/

lemma Supply.nodup_bound (hs : s.Settled) (hl : Compile.Listed s)
    (hds : ∀ sym, .decl sym ∈ ds → Plain sym.name) (hn : (s.bound.map (·.2)).Nodup) :
    ((s.drawAll ds).bound.map (·.2)).Nodup := by
  induction ds generalizing s with
  | nil => exact hn
  | cons d ds ih =>
    have hd : ∀ sym, d = .decl sym → Plain sym.name := fun sym he => hds sym (by simp [he])
    refine ih (hs.draw hd) (hl.draw d) (fun sym hsym => hds sym (mem_cons_of_mem _ hsym)) ?_
    cases d with
    | temp hint => exact hn
    | decl sym =>
      refine nodup_cons.2 ⟨fun hmem => ?_, hn⟩
      obtain ⟨p, hp, he⟩ := mem_map.1 hmem
      have hused := hl p hp
      rw [show p.2 = s.name (.decl sym) from he] at hused
      exact (hs.free_name hd).2.1 hused

lemma Supply.ids_bound (s : Supply) (ds : List Draw) :
    (s.drawAll ds).bound.map (·.1) = (Supply.ids ds).reverse ++ s.bound.map (·.1) := by
  induction ds generalizing s with
  | nil => rfl
  | cons d ds ih =>
    cases d with
    | temp hint => exact ih _
    | decl sym => simpa [Supply.ids, Supply.draw] using ih (s.draw (.decl sym))

/-- What decides on names when the code of a function is begun. -/
def Supply.fresh (n : Nat) : Supply :=
  { temps := n, used := [], bound := [] }

/-- The registers of the declarations of a function. -/
def boundOf (n : Nat) (f : Tree.Function) : List (Nat × String) :=
  ((Supply.fresh n).drawAll (functionDraws f)).bound

lemma Supply.settled_fresh (n : Nat) : (Supply.fresh n).Settled := by
  simp [Supply.Settled, Supply.fresh]

lemma Supply.listed_fresh (n : Nat) : Compile.Listed (Supply.fresh n) := by
  simp [Compile.Listed, Supply.fresh]

section

variable {callee : String → Prop} {f : Tree.Function} {n n' : Nat}
  (hplain : ∀ name ∈ Compile.declaredNames f, Plain name)

include hplain

lemma oneToOne_boundOf (hres : f.Resolved callee n n') (k : Nat) : OneToOne (boundOf k f) := by
  have hdecl : ∀ sym, .decl sym ∈ functionDraws f → Plain sym.name := fun sym hsym =>
    hplain _ (Compile.mem_declaredNames hsym)
  have hsettled := Supply.settled_fresh k
  refine ⟨?_, Supply.nodup_bound hsettled (Supply.listed_fresh k) hdecl nodup_nil, fun p hp => ?_⟩
  · rw [boundOf, Supply.ids_bound]
    simpa [Supply.fresh] using Compile.nodup_ids hres
  · rcases Supply.mem_bound_drawAll hp with hp | hp
    · cases hp
    · exact ((hsettled.names_free hdecl).1 _ hp).1

lemma around_function (hc : c.supply = Supply.fresh n) :
    Around (boundOf n f) c (functionDraws f) := by
  refine ⟨hc ▸ Supply.settled_fresh n, hc ▸ Supply.listed_fresh n, [], fun sym hsym => ?_, ?_⟩
  · rw [List.append_nil] at hsym
    exact hplain _ (Compile.mem_declaredNames hsym)
  · rw [List.append_nil, hc, boundOf]

end

section

variable {g : Function} {cx : Context} {args vs : List Int32} {w : World} {ρ : Env}

lemma run_of_ok (h : g.body.eval cx { regs := Registers.setAll {} argReg 1 args, world := w } =
    .ok () ρ) : g.run cx args w = .ok [] ρ.world := by
  rw [Function.run, h]

lemma run_of_leave (h : g.body.eval cx { regs := Registers.setAll {} argReg 1 args, world := w } =
    .error (.leave vs) ρ) : g.run cx args w = .ok vs ρ.world := by
  rw [Function.run, h]

lemma run_of_stop
    (h : g.body.eval cx { regs := Registers.setAll {} argReg 1 args, world := w } = .error e ρ)
    (he : ∀ vs, e ≠ .leave vs) : g.run cx args w = .error e ρ.world := by
  rw [Function.run, h]
  cases e with
  | leave vs => exact absurd rfl (he vs)
  | _ => rfl

end

lemma Outside.ne_leave (h : Outside e e') (vs : List Int32) : e' ≠ .leave vs := by
  rintro rfl
  cases e with
  | fault c =>
    rcases h with h | ⟨src, h⟩
    · cases h
    · cases h
  | exhausted => cases h
  | _ => exact h

lemma hasArgs_entered (args : List Int32) (w : World) :
    HasArgs 1 args { regs := Registers.setAll {} argReg 1 args, world := w } := by
  have hinj : Function.Injective argReg := fun _ _ => argReg_inj.1
  intro j
  by_cases hj : j < args.length
  · exact Registers.get?_setAll _ hinj hj 1
  · rw [List.getElem?_eq_none (Nat.le_of_not_lt hj)]
    exact Registers.get?_setAll_of_ge _ hinj (by omega)

section

variable {tcx : Tree.Context} {cx : Context} {trap : String} {all : List Stmt} {n : Nat} {ρ : Env}

lemma resume_ending (hsub : labelsIn (ending trap hasResults traps) ⊆ labelsIn all) :
    Stmt.resume cx all n (ending trap hasResults traps) ρ = .ok () ρ ∨
      Stmt.resume cx all n (ending trap hasResults traps) ρ = .error (.leave []) ρ := by
  have hret : (Stmt.ret []).eval cx ρ = .error (.leave []) ρ := rfl
  rw [labelsIn_ending] at hsub
  cases traps with
  | false =>
    cases hasResults with
    | false => exact .inr (resume_stop hret (nil_subset _) trivial)
    | true => exact .inl rfl
  | true =>
    have hleft : labelsIn [.label trap, .exp (.call (.name "_outOfBounds") [])] ⊆ labelsIn all :=
      hsub
    cases hasResults <;> exact .inr (resume_stop hret hleft trivial)

lemma resume_trap (h : s.eval cx ρ = .error (.goto trap) ρ')
    (htrap : ∀ w, cx.call "_outOfBounds" [] w = .error (.fault c) w) :
    Stmt.resume cx all n (s :: ending trap hasResults true) ρ = .error (.fault c) ρ' := by
  have hcall : (Stmt.exp (.call (.name "_outOfBounds") [])).eval cx ρ' = .error (.fault c) ρ' := by
    simp only [Stmt.eval, Expr.eval, Expr.evalAll, Eval.takeAll, Expr.label, Eval.callBy, htrap,
      bind, EStateM.bind, pure, EStateM.pure]
  have hskip : trap ∉ labelsIn [Stmt.ret []] := not_mem_nil
  have hrest : ending trap hasResults true =
      [.ret []] ++ .label trap :: [.exp (.call (.name "_outOfBounds") [])] := by
    cases hasResults <;> rfl
  rw [resume_goto h hrest hskip]
  exact resume_stop hcall (nil_subset _) trivial

/-- How the code of a body ends, where the tree of the body ends in some way. A jump that leaves
the code is not excluded. -/
def Ends : EStateM.Result Tree.Stop Tree.Env Unit → EStateM.Result Stop Env Unit → Prop
  | .ok _ σ, r => ∃ ρ, (r = .ok () ρ ∨ r = .error (.leave []) ρ) ∧ ρ.world = σ.world
  | .error e σ, r => e = .unset ∨ ∃ e' ρ, r = .error e' ρ ∧ ρ.world = σ.world ∧
    (Outside e e' ∨ (∃ vs, e = .leave vs ∧ e' = .leave vs) ∨ ∃ l, e' = .goto l)

lemma Ends.answers {g : Function}
    (h : Ends r (g.body.eval cx { regs := Registers.setAll {} argReg 1 args, world := w }))
    (hin : ∀ l w', g.run cx args w ≠ .error (.goto l) w') :
    Answers (Tree.answer r) (g.run cx args w) := by
  cases r with
  | ok u σ =>
    obtain ⟨ρ, hr, hw⟩ := h
    show g.run cx args w = .ok [] σ.world
    rw [← hw]
    rcases hr with hr | hr
    · exact run_of_ok hr
    · exact run_of_leave hr
  | error e σ =>
    rcases h with rfl | ⟨e', ρ, hr, hw, hout | ⟨vs, rfl, rfl⟩ | ⟨l, rfl⟩⟩
    · exact .inl rfl
    · have hrun := run_of_stop hr (hout.ne_leave)
      cases e with
      | leave vs => exact hout.elim
      | _ => exact .inr ⟨e', hw ▸ hrun, hout⟩
    · show g.run cx args w = .ok vs σ.world
      rw [← hw]
      exact run_of_leave hr
    · exact absurd (run_of_stop hr (by simp)) (hin l _)

lemma ends_body {B : List (Nat × String)} {name : String} {m : Tree.Eval Unit} {σ : Tree.Env}
    {body : Stmt} {hasResults traps : Bool}
    (hlabels : labelsIn all = if traps then [trapOf name] else [])
    (htrap : ∀ w, cx.call "_outOfBounds" [] w = .error (.fault (.indexOutOfBounds name)) w)
    (h : Sim B name (fun _ _ _ => True) (m σ) (body.eval cx ρ)) :
    Ends (m σ) (Stmt.resume cx all n (body :: ending (trapOf name) hasResults traps) ρ) := by
  have hsub : labelsIn (ending (trapOf name) hasResults traps) ⊆ labelsIn all := by
    rw [labelsIn_ending, hlabels]
    exact List.Subset.refl _
  cases hr : m σ with
  | ok u σ' =>
    rw [hr] at h
    obtain ⟨_, ρ', hr', -, hs⟩ := h
    rw [resume_ok hr']
    exact ⟨ρ', resume_ending hsub, hs.world⟩
  | error e σ' =>
    rw [hr] at h
    refine h.imp_right ?_
    rintro ⟨e', ρ', hr', hshow, hw⟩
    rcases hshow with hout | ⟨rfl, rfl⟩ | ⟨vs, rfl, rfl⟩
    · exact ⟨e', ρ', resume_stop hr' hsub (hout.escapes _), hw, .inl hout⟩
    · cases traps with
      | true => exact ⟨_, ρ', resume_trap hr' htrap, hw, .inl (.inl rfl)⟩
      | false =>
        refine ⟨_, ρ', resume_stop hr' hsub ?_, hw, .inr (.inr ⟨_, rfl⟩)⟩
        rw [hlabels]
        exact Stop.escapes_nil _
    · exact ⟨_, ρ', resume_stop hr' hsub trivial, hw, .inr (.inl ⟨vs, rfl, rfl⟩)⟩

/-- The code of a function does what the tree means. -/
lemma answers_function (F : Fits tcx cx) (h : FunctionOf outer f c g c')
    (hres : f.Resolved callee k k') (hplain : ∀ name ∈ Compile.declaredNames f, Plain name)
    (hname : tcx.function = f.name)
    (htrap : ∀ w, cx.call "_outOfBounds" [] w = .error (.fault (.indexOutOfBounds f.name)) w)
    (hin : ∀ l w', g.run cx args w ≠ .error (.goto l) w') :
    Answers (f.run tcx args w) (g.run cx args w) := by
  have hB := oneToOne_boundOf hplain hres c.temps
  have hA := around_function (c := { c with bound := [], used := [], traps := false }) hplain rfl
  obtain @⟨params, scope, span, ss, _, regs, moves, c1, body, _, hscope, hbody, hparams, hss⟩ := h
  obtain ⟨hscope', hbody', -, hrss⟩ := hres
  cases hscope.symm.trans hscope'
  cases hbody.symm.trans hbody'
  rw [functionDraws, hscope, hbody] at hA
  -- the registers when the function is entered
  have hstart : Same (boundOf c.temps f) { cells := fun _ => none, world := w }
      { regs := Registers.setAll {} argReg 1 args, world := w } :=
    ⟨rfl, fun p hp => Registers.get?_setAll_of_ne _ _ (hB.ne_argReg hp) _ _⟩
  have hlabels : labelsIn (moves ++ [.seq body] ++ ending (f.name ++ ".bounds")
      (!f.returns.isEmpty) c'.traps) = if c'.traps then [trapOf f.name] else [] := by
    have hmoves : labelsIn moves = [] ∧ Stmt.ConfinedAll (fun _ => True) [] [] moves :=
      hparams.confined
    rw [labelsIn_append, labelsIn_append, hmoves.1, labelsIn_ending]
    rfl
  have hends : Ends ((do
        Tree.bindParams tcx.mode params f.params args
        Tree.Stmt.evalAll tcx scope ss) { cells := fun _ => none, world := w })
      ((Stmt.seq (moves ++ [.seq body] ++ ending (f.name ++ ".bounds")
        (!f.returns.isEmpty) c'.traps)).eval cx
        { regs := Registers.setAll {} argReg 1 args, world := w }) := by
    rw [eval_seq, ← F.mode]
    rcases sim_params cx hB hparams hA.left (hasArgs_entered args w) hstart with
      ⟨σ1, ρ1, hbind, hs1, hresume⟩ | ⟨σ1, hunset⟩
    · rw [bind_ok hbind, append_assoc, hresume]
      have hrest := hA.right hparams.supply
      rw [← hname] at hss
      have hsim : Sim (boundOf c.temps f) tcx.function (fun _ _ _ => True)
          (Tree.Stmt.evalAll tcx scope ss σ1) ((Stmt.seq body).eval cx ρ1) :=
        Sim.seq (Compile.labelsIn_of_stmtsOf hss) fun hall _ =>
          sim_stmts F hB hss hrss hrest (by simp [hall]) hs1
      rw [hname] at hsim
      rw [← append_assoc]
      exact ends_body hlabels htrap hsim
    · exact bind_error hunset ▸ .inl rfl
  rw [Tree.Function.run, hscope, hbody]
  exact hends.answers hin

end

/-! ### Programs -/

lemma Compile.FunctionsOf.find? (h : FunctionsOf outer fs c gs)
    (hr : Tree.Functions.Resolved callee k fs) (name : String) :
    (fs.find? (·.name == name) = none ∧ gs.find? (·.name == name) = none) ∨
      ∃ f g c c' k k', fs.find? (·.name == name) = some f ∧ gs.find? (·.name == name) = some g ∧
        f ∈ fs ∧ g ∈ gs ∧ g.name = f.name ∧ FunctionOf outer f c g c' ∧ f.Resolved callee k k' := by
  induction h generalizing k with
  | nil => exact .inl ⟨rfl, rfl⟩
  | @cons f fs c g c' gs hf _ ih =>
    obtain _ | ⟨hres, hrs⟩ := hr
    have hname : g.name = f.name := hf.names.1
    by_cases hn : (f.name == name) = true
    · have hn' : (g.name == name) = true := by rwa [hname]
      refine .inr ⟨f, g, c, c', _, _, ?_, ?_, by simp, by simp, hname, hf, hres⟩
      · rw [List.find?_cons, hn]
      · rw [List.find?_cons, hn']
    · have hn' : ¬(g.name == name) = true := by rwa [hname]
      rw [Bool.not_eq_true] at hn hn'
      rw [List.find?_cons, List.find?_cons, hn, hn']
      refine (ih hrs).imp_right ?_
      rintro ⟨f', g', c, c', k, k', hff, hgf, hmf, hmg, hrest⟩
      exact ⟨f', g', c, c', k, k', hff, hgf, by simp [hmf], by simp [hmg], hrest⟩

lemma answers_routine (caller f : String) (args : List Int32) (w : World) :
    Answers (Tree.callLibrary caller f args w) (callRoutine caller f args w) := by
  unfold Tree.callLibrary callRoutine
  cases hr : Routine.ofName? f with
  | none => exact .inr ⟨_, rfl, .inl rfl⟩
  | some r =>
    simp only
    cases r.run caller args w with
    | ok results w => rfl
    | error c w => exact .inr ⟨_, rfl, .inl rfl⟩

section

variable {u : CodeUnit} (mode : Mode) (maxDepth budget depth : Nat) (caller : String)

lemma call_of_none (h : u.lookup name = none) :
    u.call mode maxDepth budget depth caller name = callRoutine caller name := by
  funext args
  rw [CodeUnit.call]
  simp only [h]

lemma call_malloc (h : u.lookup "malloc" = none) (size : Int32) (w : World) :
    u.call mode maxDepth budget depth caller "malloc" [size] w = match World.alloc size w with
      | .ok addr w => .ok [addr] w
      | .error c w => .error (.fault c) w := by
  have hr : Routine.ofName? "malloc" = some .malloc := by decide
  rw [call_of_none _ _ _ _ _ h]
  simp only [callRoutine, hr, Routine.run, Routine.firstArg, bind, EStateM.bind, pure, EStateM.pure]
  cases World.alloc size w <;> rfl

lemma call_outOfBounds (h : u.lookup "_outOfBounds" = none) (w : World) :
    u.call mode maxDepth budget depth caller "_outOfBounds" [] w =
      .error (.fault (.indexOutOfBounds caller)) w := by
  have hr : Routine.ofName? "_outOfBounds" = some .outOfBounds := by decide
  rw [call_of_none _ _ _ _ _ h]
  simp only [callRoutine, hr]
  rfl

end

section

variable {p q : Tree.Program} {u : CodeUnit} (hp : p.resolve = .ok q)
  (hu : CodeUnit.ofTree q = .ok u)

include hp hu

lemma lookup_of_ofTree (name : String) : (q.function? name = none ∧ u.lookup name = none) ∨
      ∃ f g outer c c' k k', q.function? name = some f ∧ u.lookup name = some g ∧
        f ∈ q.functions ∧ g ∈ u.functions ∧ g.name = f.name ∧
        FunctionOf outer f c g c' ∧ f.Resolved (fun _ => True) k k' := by
  obtain ⟨scope, -, hfs⟩ := Compile.functionsOf_of_ofTree hu
  obtain ⟨k, hres⟩ : ∃ k, Tree.Functions.Resolved (fun _ => True) k q.functions :=
    Tree.resolved_of_resolve hp fun _ _ => trivial
  rcases hfs.find? hres name with hnone | ⟨f, g, c, c', k, k', h⟩
  · exact .inl hnone
  · exact .inr ⟨f, g, _, c, c', k, k', h⟩

lemma lookup_eq_none (h : ∀ f ∈ q.functions, f.name ≠ name) : u.lookup name = none := by
  rcases lookup_of_ofTree hp hu name with ⟨-, hnone⟩ | ⟨f, g, -, -, -, -, -, hf, -, hmem, -⟩
  · exact hnone
  · exact absurd (by simpa using List.find?_some hf) (h f hmem)

variable {program : Linear.Program} (hl : Linear.Program.ofUnit u = .ok program)
  (hplain : ∀ f ∈ q.functions, ∀ name ∈ Compile.declaredNames f, Plain name)
  (hmalloc : ∀ f ∈ q.functions, f.name ≠ "malloc")
  (htrap : ∀ f ∈ q.functions, f.name ≠ "_outOfBounds")

include hl hplain hmalloc htrap

lemma answers_run (hstrict : mode.lax = false) (hf : f ∈ q.functions) (hg : g ∈ u.functions)
    (hname : g.name = f.name) (hfg : FunctionOf outer f c g c')
    (hres : f.Resolved (fun _ => True) k k')
    (hcall : ∀ h args w, Answers (q.call mode maxDepth budget depth f.name h args w)
      (u.call mode maxDepth budget depth f.name h args w)) (args : List Int32) (w : World) :
    Answers
      (f.run { mode, budget, function := f.name, call := q.call mode maxDepth budget depth f.name }
        args w)
      (g.run { mode, budget, call := u.call mode maxDepth budget depth g.name } args w) := by
  have hin := Machine.run_ne_goto hl (confined_of_ofTree hp hu) hstrict hg maxDepth
    budget depth args w
  rw [hname] at hin ⊢
  exact answers_function ⟨rfl, rfl, hcall,
    call_malloc _ _ _ _ _ (lookup_eq_none hp hu hmalloc)⟩ hfg hres (hplain f hf) rfl
    (call_outOfBounds _ _ _ _ _ (lookup_eq_none hp hu htrap)) fun l w' => hin w' l

/-- Calls of a program's code answer as calls of the tree. -/
lemma answers_call (hstrict : mode.lax = false) (maxDepth budget : Nat) :
    ∀ depth caller name args w, Answers (q.call mode maxDepth budget depth caller name args w)
      (u.call mode maxDepth budget depth caller name args w) := by
  induction budget with
  | zero =>
    intro depth caller name args w
    rw [Tree.Program.call, CodeUnit.call]
    rcases lookup_of_ofTree hp hu name with ⟨hf, hg⟩ | ⟨f, g, -, -, -, -, -, hf, hg, -⟩
    · simp only [hf, hg]
      exact answers_routine caller name args w
    · simp only [hf, hg]
      split
      · exact .inr ⟨_, rfl, .inl rfl⟩
      · exact .inr ⟨_, rfl, rfl⟩
  | succ budget ih =>
    intro depth caller name args w
    rw [Tree.Program.call, CodeUnit.call]
    rcases lookup_of_ofTree hp hu name with
      ⟨hf, hg⟩ | ⟨f, g, outer, c, c', k, k', hf, hg, hmf, hmg, hname, hfg, hres⟩
    · simp only [hf, hg]
      exact answers_routine caller name args w
    · simp only [hf, hg]
      split
      · exact .inr ⟨_, rfl, .inl rfl⟩
      · exact answers_run hp hu hl hplain hmalloc htrap hstrict hmf hmg hname hfg hres
          (ih (depth + 1) f.name) args w

end

end TreeMachine.Structured

namespace TreeMachine.Tree

/-! ### Calls from outside -/

/-- The evaluation of a call from outside, with a budget. Where an argument is missing, the
parameter gets a filler. -/
def Program.outerCall (q : Program) (maxDepth n : Nat) (name : String) (args : List Int32) :
    EStateM Stop World (List Int32) :=
  q.call { care := .fills, lax := false } maxDepth n 0 Machine.rootName name args

/-- How an evaluation ends, if it does: with results or with a fault. -/
def ended : EStateM.Result Stop World (List Int32) → Option (Except Fault (List Int32) × World)
  | .ok vs w => some (.ok vs, w)
  | .error (.fault c) w => some (.error c, w)
  | .error _ _ => none

/-- Pending output is passed on at the end of a call, which can fail a call that went well. -/
def passedOn (r : Except Fault (List Int32)) (w : World) : Except String (List Int32) × World :=
  match World.flush w with
  | .ok _ w => (r.mapError Fault.code, w)
  | .error c w => ((r >>= fun _ => .error c).mapError Fault.code, w)

/-- A call from outside gives results, or the code of an error, and leaves a world. -/
def Program.Gives (q : Program) (maxDepth : Nat) (w : World) (name : String) (args : List Int32)
    (r : Except String (List Int32)) (w' : World) : Prop :=
  ∃ n r1 w1, ended (q.outerCall maxDepth n name args w) = some (r1, w1) ∧
    passedOn r1 w1 = (r, w')

end TreeMachine.Tree

namespace TreeMachine.Machine

open Structured
open Linear

/-- What a caller outside gets to see of the end of a call. -/
def shown (e : Except Error (List Int32) × Machine) : Except String (List Int32) × World :=
  (e.1.mapError Error.code, e.2.world)

lemma shown_settle (m : Machine) (context : String) (r : Except Fault (List Int32)) :
    shown (m.settle (Error.wrap context (r.mapError fun c => .fault c {}))) =
      Tree.passedOn r m.world := by
  unfold settle Tree.passedOn
  cases World.flush m.world <;> cases r <;> rfl

lemma shown_conclude {m : Machine} (hidle : m.depth = 0) (name : String)
    (r : Except Fault (List Int32)) (s : State) :
    shown (m.conclude name r s) = Tree.passedOn r s.world := by
  unfold conclude
  simp only [hidle, if_true]
  rw [shown_settle]
  cases r <;> rfl

/-- Where the code answers as the tree, the machine's run ends as the evaluation of the tree, or
takes more steps than its budget says. -/
lemma run_of_answers (h : Answers R R') (hs : Settles M (faithful M.program .fills) n s R')
    (hunset : ∀ w, R ≠ .error .unset w) :
    (∃ r fuel t, run M fuel s = some (r, t) ∧ Tree.ended R = some (r, t.world)) ∨
      (Tree.ended R = none ∧ ∀ fuel ≤ n, run M fuel s = none) := by
  cases R with
  | ok vs w =>
    obtain rfl : R' = .ok vs w := h
    obtain ⟨fuel, t, hrun, rfl⟩ := hs
    exact .inl ⟨_, fuel, t, hrun, rfl⟩
  | error e w =>
    obtain ⟨e', rfl, hout⟩ := h.resolve_left fun he => hunset w (he ▸ rfl)
    cases e with
    | fault c =>
      rcases hout with rfl | ⟨src, rfl⟩
      · obtain ⟨fuel, _, t, hrun, ⟨rfl, -⟩, rfl⟩ := hs
        exact .inl ⟨_, fuel, t, hrun, rfl⟩
      · obtain ⟨s1, _, t, hreach, -, hstep, ⟨rfl, -⟩, rfl⟩ := hs trivial
        obtain ⟨fuel, hrun⟩ := run_of_reaches hreach hstep
        exact .inl ⟨_, fuel, t, hrun, rfl⟩
    | exhausted =>
      obtain rfl : e' = .exhausted := hout
      exact .inr ⟨rfl, hs⟩
    | _ => exact hout.elim

/-- The machine's calls end in the ways that the evaluation of the tree gives. -/
def Agrees (m : Machine) (q : Tree.Program) (name : String) (args : List Int32) : Prop :=
  ∀ r w, (∃ e m1, m.EndsWith name args (e, m1) ∧ e.mapError Error.code = r ∧ m1.world = w) ↔
    q.Gives m.setup.maxDepth m.world name args r w

section

variable {m : Machine} {q : Tree.Program} {name : String} {args : List Int32}

lemma agrees_iff : m.Agrees q name args ↔ ∀ x, (∃ e, m.EndsWith name args e ∧ shown e = x) ↔
      q.Gives m.setup.maxDepth m.world name args x.1 x.2 := by
  refine ⟨fun h x => ?_, fun h r w => ?_⟩
  · rw [← h x.1 x.2]
    constructor
    · rintro ⟨⟨e, m1⟩, hends, rfl⟩
      exact ⟨e, m1, hends, rfl, rfl⟩
    · rintro ⟨e, m1, hends, hr, hw⟩
      exact ⟨(e, m1), hends, Prod.ext hr hw⟩
  · rw [← h (r, w)]
    constructor
    · rintro ⟨e, m1, hends, rfl, rfl⟩
      exact ⟨(e, m1), hends, rfl⟩
    · rintro ⟨⟨e, m1⟩, hends, he⟩
      exact ⟨e, m1, hends, congrArg Prod.fst he, congrArg Prod.snd he⟩

lemma agrees_of_runs (hidle : m.depth = 0) (hl : m.setup.program.labels[name]? = some addr)
    (hs : m.start name addr args = .ok s)
    (hzero : Tree.ended (q.outerCall m.setup.maxDepth 0 name args m.world) = none)
    (h : ∀ n, (∃ r fuel t, run m.setup fuel s = some (r, t) ∧
        Tree.ended (q.outerCall m.setup.maxDepth (n + 1) name args m.world) = some (r, t.world)) ∨
      (Tree.ended (q.outerCall m.setup.maxDepth (n + 1) name args m.world) = none ∧
        ∀ fuel ≤ n, run m.setup fuel s = none)) : m.Agrees q name args := by
  rw [agrees_iff]
  rintro ⟨r, w⟩
  constructor
  · rintro ⟨e, hends, he⟩
    obtain ⟨fuel, r1, t, hrun, rfl⟩ := run_of_endsWith hl hs hends
    rw [shown_conclude hidle] at he
    rcases h fuel with ⟨r', fuel', t', hrun', hended⟩ | ⟨-, hnone⟩
    · obtain ⟨rfl, rfl⟩ := Prod.mk.inj (run_unique hrun hrun')
      exact ⟨fuel + 1, r1, t.world, hended, he⟩
    · rw [hnone fuel le_rfl] at hrun
      cases hrun
  · rintro ⟨n, r1, w1, hended, hpass⟩
    cases n with
    | zero => rw [hzero] at hended; cases hended
    | succ n =>
      rcases h n with ⟨r', fuel, t, hrun, hended'⟩ | ⟨hnone, -⟩
      · obtain ⟨rfl, rfl⟩ := Prod.mk.inj (Option.some.inj (hended'.symm.trans hended))
        exact ⟨_, endsWith_of_run hl hs hrun, (shown_conclude hidle _ _ _).trans hpass⟩
      · rw [hnone] at hended
        cases hended

lemma agrees_of_none (hidle : m.depth = 0) (hl : m.setup.program.labels[name]? = none)
    (hf : q.function? name = none) : m.Agrees q name args := by
  have hcall : ∀ n, q.outerCall m.setup.maxDepth n name args m.world =
      Tree.callLibrary rootName name args m.world := by
    intro n
    rw [Tree.Program.outerCall, Tree.Program.call]
    simp only [hf]
  obtain ⟨r, after, hinvoke, hended⟩ : ∃ r after,
      (∀ fuel, m.invoke fuel name args = some (r, after)) ∧
      Tree.ended (Tree.callLibrary rootName name args m.world) = some (r, after.world) := by
    simp only [invoke, hl, Tree.callLibrary]
    cases Routine.ofName? name with
    | none => exact ⟨_, m, fun _ => rfl, rfl⟩
    | some routine =>
      simp only
      cases routine.run rootName args m.world with
      | ok results w => exact ⟨_, { m with world := w }, fun _ => rfl, rfl⟩
      | error c w => exact ⟨_, { m with world := w }, fun _ => rfl, rfl⟩
  have hcallAll : ∀ fuel, m.callAll fuel name args = some (after.settle
      (Error.wrap s!"call {name}" (r.mapError fun cause => .fault cause {}))) := by
    intro fuel
    rw [callAll_of_invoke (hinvoke fuel), if_pos hidle]
  rw [agrees_iff]
  rintro ⟨r', w⟩
  constructor
  · rintro ⟨e, ⟨⟨fuel, hfuel⟩, -⟩, he⟩
    cases (hcallAll fuel).symm.trans hfuel
    exact ⟨0, r, after.world, (hcall 0).symm ▸ hended, (shown_settle _ _ _).symm.trans he⟩
  · rintro ⟨n, r1, w1, hended', hpass⟩
    rw [hcall, hended] at hended'
    cases hended'
    refine ⟨_, ⟨⟨0, hcallAll 0⟩, fun fuel e' he' => ?_⟩, (shown_settle _ _ _).trans hpass⟩
    exact (Option.some.inj ((hcallAll fuel).symm.trans he')).symm

end

lemma labels_eq_none (hu : CodeUnit.ofTree q = .ok u) (hl : Program.ofUnit u = .ok program)
    (hname : Pointless name) (hnone : q.function? name = none) : program.labels[name]? = none := by
  refine Std.TreeMap.getElem?_eq_none fun hmem => ?_
  rw [Program.mem_labels_iff hl] at hmem
  obtain ⟨scope, -, hfs⟩ := Compile.functionsOf_of_ofTree hu
  rcases hfs.names.2 name hmem with ⟨f, hf, rfl | rfl⟩ | ⟨hint, k, rfl, -⟩
  · rw [Tree.Program.function?, List.find?_eq_none] at hnone
    exact hnone f hf (beq_self_eq_true _)
  · exact Compile.not_pointless_trapOf f.name hname
  · exact not_pointless_numbered hint k hname

section

variable {p q : Tree.Program} {u : CodeUnit} (hp : p.resolve = .ok q)
  (hu : CodeUnit.ofTree q = .ok u)

include hp hu

lemma agrees_of_ofTree
    (hdeclared : ∀ f ∈ q.functions, ∀ name ∈ Compile.declaredNames f, Pointless name)
    (hmalloc : ∀ f ∈ q.functions, f.name ≠ "malloc")
    (htrap : ∀ f ∈ q.functions, f.name ≠ "_outOfBounds") {m : Machine}
    (hl : Program.ofUnit u = .ok m.setup.program) (hidle : m.depth = 0)
    (hpos : 0 < m.setup.maxDepth) (hname : Pointless name) (args : List Int32)
    (hunset : ∀ n w, q.outerCall m.setup.maxDepth n name args m.world ≠ .error .unset w) :
    m.Agrees q name args := by
  rcases lookup_of_ofTree hp hu name with
    ⟨hf, -⟩ | ⟨f, g, outer, c, c', k, k', hf, -, hmf, hmg, hgf, hfg, hres⟩
  · exact agrees_of_none hidle (labels_eq_none hu hl hname hf) hf
  have hconf := confined_of_ofTree hp hu
  obtain rfl : f.name = name := by simpa using List.find?_some hf
  obtain ⟨r, hh, hstart⟩ := start_of_holds args hl hmg (hidle ▸ hpos)
  have hshallow : ¬m.setup.maxDepth ≤ 0 := by omega
  rw [hgf] at hstart
  refine agrees_of_runs hidle (hgf ▸ hh.label) hstart ?_ fun n => ?_
  · rw [Tree.Program.outerCall, Tree.Program.call]
    simp only [hf, if_neg hshallow]
    rfl
  · have hplain : ∀ f ∈ q.functions, ∀ name ∈ Compile.declaredNames f,
        Plain name := fun f hf name hn => (hdeclared f hf name hn).plain
    have hcalls := answers_call hp hu hl hplain hmalloc htrap
      (show Mode.lax { care := .fills, lax := false } = false from rfl)
      m.setup.maxDepth n 1 f.name
    have hanswers := answers_run hp hu hl hplain hmalloc htrap rfl hmf hmg hgf hfg hres
      hcalls args m.world
    have hcall : q.outerCall m.setup.maxDepth (n + 1) f.name args m.world =
        f.run { mode := { care := .fills, lax := false }, budget := n, function := f.name
                call := q.call { care := .fills, lax := false } m.setup.maxDepth n 1 f.name }
          args m.world := by
      rw [Tree.Program.outerCall, Tree.Program.call]
      simp only [hf, if_neg hshallow]
    rw [hcall]
    exact run_of_answers hanswers (settles_of_unit hl hconf hidle hmg hh n) fun w =>
      hcall ▸ hunset (n + 1) w

end

/-- The code of a program preserves its meaning. There is a machine for the code of every resolved
program whose names have no point, and after any calls of it, a call ends exactly as the tree
says: with the same results or code of an error, and in the same world of output, input and heap.
Excepted are programs that define what the code calls on its own, and calls that read a variable
without a value. -/
theorem meaning_preserved {p q : Tree.Program} {u : CodeUnit} (hp : p.resolve = .ok q)
    (hu : CodeUnit.ofTree q = .ok u) (hnames : ∀ f ∈ q.functions, Pointless f.name)
    (hdeclared : ∀ f ∈ q.functions, ∀ name ∈ Structured.Compile.declaredNames f, Pointless name)
    (hmalloc : ∀ f ∈ q.functions, f.name ≠ "malloc")
    (htrap : ∀ f ∈ q.functions, f.name ≠ "_outOfBounds") (o : Options) :
    ∃ m0, ofUnit? (some u) o = .ok m0 ∧ ∀ m, Relation.ReflTransGen Serves m0 m →
      ∀ name args, Pointless name →
        (∀ n w, q.outerCall m.setup.maxDepth n name args m.world ≠ .error .unset w) →
        ∀ r w, (∃ e m1, m.EndsWith name args (e, m1) ∧ e.mapError Error.code = r ∧ m1.world = w) ↔
          q.Gives m.setup.maxDepth m.world name args r w := by
  obtain ⟨program, hl, hlink⟩ := linked_of_confined
    (nodup_unitNames hp hu hnames) (confined_of_ofTree hp hu)
  obtain ⟨m0, hm0, -⟩ := ofProgram_of_link hlink o
  have hunit : ofUnit? (some u) o = .ok m0 := by
    show (Program.ofUnit u >>= fun p => ofProgram p o) = .ok m0
    rw [hl]
    exact hm0
  refine ⟨m0, hunit, fun m hserves name args hname hunset => ?_⟩
  obtain ⟨hidle, hpos, hprogram⟩ := setup_of_serves hunit hserves
  exact agrees_of_ofTree hp hu hdeclared hmalloc htrap hprogram hidle.depth hpos hname args hunset

/-- Counts a parameter down in a loop, and gives what a function makes of its last values. -/
def countdown : Tree.Program where
  name := "countdown"
  functions := [
    { name := "twice"
      params := [{ name := "x", type := some .int }]
      returns := [.int]
      body := some { stmts := [.ret {}
        [.binary {} none .add (.ident { name := "x" }) (.ident { name := "x" })]] } },
    { name := "main"
      params := [{ name := "k", type := some .int }]
      returns := [.int]
      body := some { stmts := [
        .array {} "a" (some (.array .int)) [] [.int {} 5],
        .loop {} (.binary {} none .logAnd
            (.binary {} none .gt (.ident { name := "k" }) (.int {} 0))
            (.binary {} none .lt (.ident { name := "k" }) (.int {} 3)))
          (.block {} none [
            .assign {} (.index {} none (.ident { name := "a" }) (.int {} 0))
              (.call {} none "twice" [.ident { name := "k" }]),
            .assign {} (.ident { name := "k" })
              (.binary {} none .sub (.ident { name := "k" }) (.int {} 1))]),
        .ret {} [.index {} none (.ident { name := "a" }) (.ident { name := "k" })]] } }]

/-- Whether an evaluation has read a variable without a value. -/
def readsUnset : EStateM.Result Tree.Stop World (List Int32) → Bool
  | .error .unset _ => true
  | _ => false

lemma readsUnset_countdown (n : Nat) (w : World) : (countdown.resolve.toOption.map fun q =>
    readsUnset (q.outerCall 100000 n "main" [2] { w with heap := .empty 33554432 })) =
      some false := by
  rcases n with _ | _ | _ | _ | _ | _ | n <;> cbv

theorem meaning_preserved_countdown : ∃ q u m w, countdown.resolve = .ok q ∧
    CodeUnit.ofTree q = .ok u ∧ ofUnit? (some u) {} = .ok m ∧
    (∃ m1, m.EndsWith "main" [2] (.ok [2], m1) ∧ m1.world = w) ∧
    q.Gives m.setup.maxDepth m.world "main" [2] (.ok [2]) w := by
  have hrun : (countdown.resolve.toOption.bind fun q =>
    (CodeUnit.ofTree q).toOption.bind fun u =>
    (ofUnit? (some u) {}).toOption.map fun m =>
      decide (∀ f ∈ q.functions, Pointless f.name ∧ f.name ≠ "malloc" ∧
        f.name ≠ "_outOfBounds" ∧
        ∀ name ∈ Compile.declaredNames f, Pointless name) &&
      m.checkCall 1000 "main" [2] (fun _ => true) fun r _ => decide (r.toOption = some [2])) =
    some true := by
    decide +kernel
  simp only [Except.bind_eq_some, Except.map_eq_some] at hrun
  obtain ⟨q, hq, u, hu, m, hm, hrun⟩ := hrun
  rw [Bool.and_eq_true, decide_eq_true_eq] at hrun
  obtain ⟨hfs, hrun⟩ := hrun
  obtain ⟨r, m1, -, hends, hr, -, -⟩ := exists_of_checkCall hrun
  obtain rfl := Except.eq_ok_of_toOption (of_decide_eq_true hr)
  obtain ⟨m0, hm0, hmeaning⟩ := meaning_preserved hq hu (fun f hf => (hfs f hf).1)
    (fun f hf => (hfs f hf).2.2.2) (fun f hf => (hfs f hf).2.1) (fun f hf => (hfs f hf).2.2.1) {}
  obtain rfl : m = m0 := Except.ok.inj (hm.symm.trans hm0)
  refine ⟨q, u, m, m1.world, hq, hu, hm, ⟨m1, hends, rfl⟩, ?_⟩
  refine (hmeaning m .refl "main" [2] (by decide) (fun n w => ?_) _ _).1 ⟨_, m1, hends, rfl, rfl⟩
  intro hcall
  obtain ⟨p, -, hm⟩ := Except.bind_eq_ok hm
  obtain ⟨-, -, hm⟩ := Except.bind_eq_ok hm
  have hcareful := readsUnset_countdown n m.world
  cases hm
  rw [hq] at hcareful
  have := (congrArg readsUnset hcall).symm.trans (Option.some.inj hcareful)
  cases this

end TreeMachine.Machine
