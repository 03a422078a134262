import TreeMachine.Proofs.Traps

/-!
# Checks of indices in compiled code

Every access to an element of an array is checked by one statement, in structured code as it was
compiled and in lowered code part by part. Here it is found out where such a check stands, in a
state of a run that is before it.
-/

open List

namespace TreeMachine.Structured.Compile

/-- A register that is made after the code of an expression is not one that this code moves a
value to. -/
lemma not_moved_of_lt (h : ValueOf scopes trap e c x c') (hint : String) (hn : c'.temps < n) :
    numbered hint n ∉ x.moved := by
  intro hmem
  obtain ⟨hint', n', heq, -, hle⟩ := (moved_value h).2 _ hmem
  rw [numbered_inj] at heq
  omega

/-- The check of an index has these registers, this label behind it and this code of its array and
its index; the counters go from `c` to `c'` before it. -/
structure CheckOf (scopes : List Tree.Scope) (trap : String) (array idx : Tree.Expr) (c : Compiling)
    (A I yes : String) (xa xi : Expr) (c' : Compiling) : Prop where
  parts : ∃ c1, ValueOf scopes trap array c xa c1 ∧ ValueOf scopes trap idx c1 xi c'
  array_eq : A = numbered "aA" (c'.temps + 1)
  index_eq : I = numbered "aI" (c'.temps + 2)
  label_eq : yes = numbered "bounds.ok" (c'.labels + 1)

section

variable {scopes : List Tree.Scope} {trap : String} {array idx : Tree.Expr} {c c' : Compiling}
  {A I yes : String} {xa xi : Expr}

lemma checkOf_of_boundsCheck (h : boundsCheck trap (expr scopes trap array).value
      (expr scopes trap idx).value c = .ok (r, c')) :
    ∃ A I yes xa xi c1, CheckOf scopes trap array idx c A I yes xa xi c1 ∧
      r = (checkCode (.temp A) (.temp I) xa xi yes trap, elementAddr (.temp A) (.temp I)) := by
  obtain ⟨xa, ca, ha, h⟩ := StateT.ok_of_bind h
  obtain ⟨xi, ci, hi, h⟩ := StateT.ok_of_bind h
  cases h
  exact ⟨_, _, _, xa, xi, ci, ⟨⟨ca, (byRules_expr scopes trap array).value ha,
    (byRules_expr scopes trap idx).value hi⟩, rfl, rfl, rfl⟩, rfl⟩

variable (h : CheckOf scopes trap array idx c A I yes xa xi c')

include h

lemma CheckOf.ne : A ≠ I := by
  rw [h.array_eq, h.index_eq]
  simp [numbered_inj]

lemma CheckOf.not_moved : A ∉ xi.moved := by
  obtain ⟨c1, -, hi⟩ := h.parts
  rw [h.array_eq]
  exact not_moved_of_lt hi _ (Nat.lt_succ_self _)

lemma CheckOf.ne_retReg (i : Nat) : A ≠ retReg i := by
  rw [h.array_eq]
  exact ne_retReg_numbered _ _ i

omit h in
lemma FunctionOf.ne_checkCode (h : FunctionOf outer f c g c') (a i array idx : Expr)
    (yes no : String) : checkCode a i array idx yes no ≠ g.body := by
  obtain @⟨params, scope, span, ss, c, regs, moves, c1, body, _, -, -, hp, hs⟩ := h
  intro heq
  have hmem : Stmt.seq body ∈ moves ++ [.seq body] ++
      ending (f.name ++ ".bounds") (!f.returns.isEmpty) c'.traps := by simp
  rw [← Stmt.seq.inj heq] at hmem
  simp at hmem

end

end TreeMachine.Structured.Compile

namespace TreeMachine.Structured

lemma ne_body_of_move {u : CodeUnit} (hconf : ∀ f ∈ u.functions, f.Confined ok) {g : Function}
    (hg : g ∈ u.functions) : Node.stmt (.move x y) ≠ .stmt g.body := by
  obtain ⟨ss, esc, ts, hbody, -⟩ := hconf g hg
  rw [hbody]
  simp

end TreeMachine.Structured

namespace TreeMachine.Flat

open Structured.Compile

/-- The jump of a check whose array and index are in registers, and the label behind it. -/
def comparedAt (A I yes no : String) : List Stmt :=
  [.cjump (.binop .ult (.temp I) (.mem (.binop .sub (.temp A) (.const 4)))) yes no, .label yes]

section

variable {taken : Taken} {ok lab : String → Prop} {k k' : Nat} {code : List Stmt}

lemma of_lowersExpr_lift (h : LowersExpr taken ok lab x.lift k code y k') :
    code = [] ∧ y = x ∧ k' = k := by
  induction x generalizing k code y k' with
  | const v =>
    cases h
    exact ⟨rfl, rfl, rfl⟩
  | temp r =>
    cases h
    exact ⟨rfl, rfl, rfl⟩
  | name l => cases h
  | mem x ih =>
    cases h with
    | mem h =>
      obtain ⟨rfl, rfl, rfl⟩ := ih h
      exact ⟨rfl, rfl, rfl⟩
  | unop op x ih =>
    cases h with
    | unop h =>
      obtain ⟨rfl, rfl, rfl⟩ := ih h
      exact ⟨rfl, rfl, rfl⟩
  | binop op l r ihl ihr =>
    cases h with
    | binop _ h =>
      obtain ⟨pre, x, k1, pre', y, k2, moves, zs, hl, hr, hj, rfl, heq⟩ := h.pair
      obtain ⟨rfl, rfl, rfl⟩ := ihl hl
      obtain ⟨rfl, rfl, rfl⟩ := ihr hr
      cases hj with
      | plain =>
        cases heq
        exact ⟨rfl, rfl, rfl⟩
      | after hne _ => exact absurd rfl hne

lemma of_lowersStmt_checkCode
    (h : LowersStmt taken ok lab (checkCode (.temp A) (.temp I) xa xi yes no) k code k') :
    ∃ ca ci k1, LowersStmt taken ok lab (.move (.temp A) xa) k ca k1 ∧
      LowersStmt taken ok lab (.move (.temp I) xi) k1 ci k' ∧ lab no ∧
      code = ca ++ ci ++ comparedAt A I yes no := by
  cases h with
  | seq h =>
    cases h with
    | cons ha h =>
      cases h with
      | cons hi h =>
        cases h with
        | cons hj h =>
          cases hj with
          | cjump _ hno hcond =>
            obtain ⟨rfl, rfl, rfl⟩ := of_lowersExpr_lift
              (x := .binop .ult (.temp I) (.mem (.binop .sub (.temp A) (.const 4)))) hcond
            cases h with
            | cons hl h =>
              cases hl
              cases h
              exact ⟨_, _, _, ha, hi, hno, by simp [comparedAt]⟩

end

end TreeMachine.Flat

namespace TreeMachine.Linear

open Structured

lemma Occurs.trans (h : Occurs t a v b) (h' : Occurs v b w c) : Occurs t a w c := by
  induction h with
  | self => exact h'
  | part before after hchildren _ ih => exact .part before after hchildren (ih h')

end TreeMachine.Linear

namespace TreeMachine.Machine

open Structured
open Structured.Compile
open Linear

/-- A run of the code of a unit is in a function. -/
structure Inside (M : Setup) (u : CodeUnit) (g : Function) (s : State) : Prop where
  program : Program.ofUnit u = .ok M.program
  member : g ∈ u.functions
  holds : Program.Holds M.program g s.frame.fn
  started : ∃ s0, Started M u s0 ∧ Reaches M s0 s

/-! ### Structured code -/

section

variable {p q : Tree.Program} {u : CodeUnit} {M : Setup} {g : Function} {s : State}
  (hq : p.resolve = .ok q) (hu : CodeUnit.ofTree q = .ok u)

include hq hu

omit hq in
lemma labels_routine (hp : Program.ofUnit u = .ok M.program) (hname : Pointless name)
    (hr : (Routine.ofName? name).isSome) (hnone : u.lookup name = none) :
    M.program.labels[name]? = none :=
  labels_of_callable hp (callable_routine hu hname hr) hnone

lemma Inside.trap (h : Inside M u g s) (hm : trapOf g.name ∈ marks (itemsOf g.body)) :
    ∃ b, TrapAt M s.frame.fn b :=
  trapAt_of_trapped h.holds (trapped_of_ofTree hq hu h.member hm)

lemma checkCode_ne (hg : g ∈ u.functions) :
    Node.stmt (checkCode a i array idx yes no) ≠ .stmt g.body := by
  obtain ⟨scope, -, hfs⟩ := Structured.Compile.functionsOf_of_ofTree hu
  obtain ⟨n, hr⟩ := Tree.resolved_of_resolve hq fun _ _ => trivial
  obtain ⟨f, -, c, c', n, n', hf, -⟩ := hfs.mem hr hg
  intro heq
  exact hf.ne_checkCode a i array idx yes no (Node.stmt.inj heq)

/-- A check in structured code. -/
lemma Inside.checkAt (h : Inside M u g s)
    (hc : CheckOf scopes (trapOf g.name) array idx c A I yes xa xi c')
    (hocc : Occurs (.stmt g.body) s.frame.fn.start
      (.stmt (checkCode (.temp A) (.temp I) xa xi yes (trapOf g.name))) a) :
    ∃ esc scope, CheckAt M (Callable u) s.frame.fn A I yes [.move (.temp A) xa]
      [.move (.temp I) xi] a esc scope := by
  obtain ⟨esc, hesc, scope, hscope, hdis, hall⟩ :=
    (confined_of_ofTree hq hu g h.member).part hocc (checkCode_ne hq hu h.member)
  obtain ⟨hplaced, hlo, hend⟩ := hocc.placed h.holds.placed
  have hstop : s.frame.fn.stop = s.frame.fn.start + extent (itemsOfNode (.stmt g.body)) :=
    h.holds.stop
  have hcheck := hplaced.append.1
  have hno : trapOf g.name ∈ marks (itemsOf g.body) := by
    rcases hall.2.2.1.2.2 with hno | hno
    · rcases mem_cons.1 hno with hno | hno
      · rw [hc.label_eq] at hno
        exact absurd hno.symm (Compile.numbered_ne_trapOf _ _ _)
      · exact hscope _ hno
    · exact (hesc _ hno).2
  have hlabels : ∀ l ∈ esc ++ yes :: scope, (M.program.labels[l]?).isSome := by
    have hmarks : ∀ l ∈ marks (itemsOf g.body), (M.program.labels[l]?).isSome := fun l hl =>
      h.holds.placed.isSome_of_mem_marks hl
    intro l hl
    rcases mem_append.1 hl with hl | hl
    · exact hmarks l (hesc l hl).2
    · rcases mem_cons.1 hl with rfl | hl
      · exact isSome_of_mem_labelsIn hcheck (by simp [labelsIn, Stmt.label?])
      · exact hmarks l (hscope l hl)
  refine ⟨esc, yes :: scope, ?_⟩
  rw [← h.holds.name] at hcheck
  refine ⟨hcheck, hlo, ?_, ⟨hall.1, hall.2.1, trivial⟩, hlabels, by simp [labelsIn], ?_,
    hc.ne_retReg, h.trap hq hu hno⟩
  · rw [h.holds.name]
    change a + extent (itemsOfAll ([.move (.temp A) xa] ++ [.move (.temp I) xi] ++
      compared A I yes (trapOf g.name)) ++ _) ≤ _ at hend
    rw [extent_append] at hend
    omega
  · simp [Stmt.movedAll, Stmt.moved, hc.ne, hc.not_moved]

end

/-! ### Lowered code -/

/-- The code that a statement is lowered to stands in a flat function behind `before`. -/
def StmtBehind (taken : Flat.Taken) (ok : String → Prop) (f : Function)
    (g : Flat.Function) (st : Stmt)
    (before code : List Flat.Stmt) : Prop :=
  ∃ after k k', g.body = before ++ (code ++ after) ∧
    Flat.LowersStmt taken ok (· ∈ marks (itemsOf f.body)) st k code k'

/-- The moves of array and index to the registers of a check, lowered. -/
def LowersParts (taken : Flat.Taken) (ok : String → Prop) (f : Function) (A I : String)
    (xa xi : Expr)
    (ca ci : List Flat.Stmt) : Prop :=
  ∃ k k1 k', Flat.LowersStmt taken ok (· ∈ marks (itemsOf f.body)) (.move (.temp A) xa) k ca k1 ∧
    Flat.LowersStmt taken ok (· ∈ marks (itemsOf f.body)) (.move (.temp I) xi) k1 ci k'

section

variable {M : Setup} {f : Function} {g : Flat.Function} {before code after : List Flat.Stmt}

lemma placed_stretch (hh : Program.Holds M.program g.lift r)
    (hbody : g.body = before ++ (code ++ after)) :
    Placed M.program (r.start + extent (itemsOfAll (before.map Flat.Stmt.lift)))
      (itemsOfAll (code.map Flat.Stmt.lift)) ∧
    r.start + extent (itemsOfAll (before.map Flat.Stmt.lift)) +
      extent (itemsOfAll (code.map Flat.Stmt.lift)) ≤ r.stop := by
  have hplaced := hh.placed
  have hstop := hh.stop
  rw [Flat.Function.lift, hbody] at hplaced hstop
  simp only [itemsOf, map_append, itemsOfAll_append, append_assoc] at hplaced hstop
  rw [extent_append, extent_append] at hstop
  exact ⟨hplaced.append.2.append.1, by omega⟩

lemma contains_of_lowered (hfg : Flat.Lowered taken ok f g) (hocc : Occurs (.stmt f.body) a v b)
    (hne : v ≠ .stmt f.body) (hv : Flat.Whole v) :
    Flat.Contains taken ok (· ∈ marks (itemsOf f.body)) g.body v := by
  obtain ⟨ss, k, codes, k', hbody, hcode, hl⟩ := hfg.body
  obtain ⟨c, hc, a', hocc⟩ := (Structured.Occurs.eq_or_child hocc).resolve_left hne
  rw [hbody] at hc
  obtain ⟨st, hst, rfl⟩ := mem_map.1 hc
  rw [hcode]
  exact Flat.contains_stmts hl hst hocc hv

lemma exists_stmtBehind (hfg : Flat.Lowered taken ok f g)
    (hocc : Occurs (.stmt f.body) a (.stmt st) b) (hne : Node.stmt st ≠ .stmt f.body) :
    ∃ before code, StmtBehind taken ok f g st before code := by
  obtain ⟨k, mid, k', ⟨before, after, hbody⟩, hmid⟩ := contains_of_lowered hfg hocc hne trivial
  exact ⟨before, mid, after, k, k', by rw [← hbody, append_assoc], hmid⟩

variable {p q : Tree.Program} {u : CodeUnit} {l : Flat.CodeUnit} {s : State}
  (hq : p.resolve = .ok q) (hu : CodeUnit.ofTree q = .ok u)
  (hl : Flat.CodeUnit.ofStructured u = .ok l) (hf : f ∈ u.functions)
  (hfg : Flat.Lowered (Std.TreeSet.ofList u.temps) (Callable u) f g)

include hq hu hl

lemma callable_eq : Callable u = Callable l.lift :=
  funext fun name => propext (Flat.callable_lift
    (Flat.lowered_of_ofStructured (confined_of_ofTree hq hu) hl) name).symm

lemma labels_routine_lowered (hp : Program.ofUnit l.lift = .ok M.program) (hname : Pointless name)
    (hr : (Routine.ofName? name).isSome) (hnone : u.lookup name = none) :
    M.program.labels[name]? = none := by
  have hlow := Flat.lowered_of_ofStructured (confined_of_ofTree hq hu) hl
  refine labels_of_callable hp ((Flat.callable_lift hlow _).2 (callable_routine hu hname hr)) ?_
  rw [lookup_eq_none_iff, Flat.names_lift hlow, ← lookup_eq_none_iff]
  exact hnone

include hf hfg

/-- A check in lowered code. -/
lemma Inside.checkAt_lowered (h : Inside M l.lift g.lift s)
    (hc : CheckOf scopes (trapOf f.name) array idx c A I yes xa xi c')
    (hb : StmtBehind (Std.TreeSet.ofList u.temps) (Callable u) f g
      (checkCode (.temp A) (.temp I) xa xi yes (trapOf f.name)) before code) :
    ∃ ca ci, LowersParts (Std.TreeSet.ofList u.temps) (Callable u) f A I xa xi ca ci ∧
      code = ca ++ ci ++ Flat.comparedAt A I yes (trapOf f.name) ∧
      CheckAt M (Callable l.lift) s.frame.fn A I yes (ca.map Flat.Stmt.lift) (ci.map Flat.Stmt.lift)
        (s.frame.fn.start + extent (itemsOfAll (before.map Flat.Stmt.lift))) []
        (labelsIn (g.body.map Flat.Stmt.lift)) := by
  obtain ⟨after, k, k', hbody, hcode⟩ := hb
  obtain ⟨ca, ci, k1, hca, hci, hno, rfl⟩ := Flat.of_lowersStmt_checkCode hcode
  refine ⟨ca, ci, ⟨k, k1, k', hca, hci⟩, rfl, ?_⟩
  have hname : s.frame.fn.name = f.name := h.holds.name.trans hfg.name
  obtain ⟨hplaced, hstop⟩ := placed_stretch h.holds hbody
  have hlift : (ca ++ ci ++ Flat.comparedAt A I yes (trapOf f.name)).map Flat.Stmt.lift =
      ca.map Flat.Stmt.lift ++ ci.map Flat.Stmt.lift ++
        compared A I yes (trapOf s.frame.fn.name) := by
    rw [hname, map_append, map_append]
    rfl
  rw [hlift] at hplaced hstop
  have hmem : ∀ st ∈ ca.map Flat.Stmt.lift ++ ci.map Flat.Stmt.lift,
    st ∈ g.body.map Flat.Stmt.lift := by
    intro st hst
    rw [hbody]
    simp only [map_append, mem_append] at hst ⊢
    tauto
  refine ⟨hplaced, Nat.le_add_right _ _, hstop, ?_, fun l hl => ?_, by simp, ?_, hc.ne_retReg,
    trapAt_of_lowered hfg h.holds (trapped_of_ofTree hq hu hf hno)⟩
  · have hall := Stmt.confinedAll_iff.1 (callable_eq hq hu hl ▸ hfg).confinedAll
    exact Stmt.confinedAll_iff.2 fun st hst => hall st (hmem st hst)
  · have hwhole : Placed M.program s.frame.fn.start (itemsOfAll (g.body.map Flat.Stmt.lift)) :=
      h.holds.placed.append.1
    exact isSome_of_mem_labelsIn hwhole hl
  · have htaken : A ∈ Std.TreeSet.ofList u.temps := by
      cases hca with
      | moveTemp hA _ => exact hA
      | moveCall hA _ _ => exact hA
    intro hA
    rcases (Flat.shape_stmt hci).moves.2 A hA with ⟨hold, -⟩ | ⟨-, -, -, hfree, -⟩
    · simp [Stmt.moved, hc.ne, hc.not_moved] at hold
    · exact hfree htaken

end

end TreeMachine.Machine
