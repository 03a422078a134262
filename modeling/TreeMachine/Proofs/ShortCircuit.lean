import TreeMachine.Proofs.Moved
import TreeMachine.Proofs.Places
import TreeMachine.Proofs.TreeEvaluation

/-!
# Short-circuit conditions

A condition built from `!`, `&&` and `||` is compiled to code that jumps: a label for each
outcome is handed down, `!` swaps the two, and `&&` and `||` put a label of their own before the
right side. The code decides the condition as one reads it: left to right, and no further than
the outcome is open. What it does on the way is what the leaves do that are reached, and it ends
before the label of the outcome with the operands it found.
-/

open List

namespace TreeMachine.Structured

open Eval

/-- A condition whose leaves are code. -/
inductive Condition where
  | literal (b : Bool)
  | leaf (x : Expr)
  | not (k : Condition)
  | and (left right : Condition)
  | or (left right : Condition)

/-- Decides a condition from left to right, as far as it takes. -/
def Condition.decide (cx : Context) : Condition → Eval Bool
  | .literal b => return b
  | .leaf x => do return (← Eval.take cx.mode.care (← x.eval cx)) != 0
  | .not k => do return !(← k.decide cx)
  | .and left right => do if ← left.decide cx then right.decide cx else return false
  | .or left right => do if ← left.decide cx then return true else right.decide cx

/-- Decides a condition and puts one or zero for it in a register. -/
def Condition.flag (cx : Context) (k : Condition) (r : String) : Eval Int32 := do
  Eval.setRegister r 0
  if ← k.decide cx then
    Eval.setRegister r 1
    return 1
  else return 0

namespace Compile

open TreeMachine.Tree

/-- A tree has this code as a test that goes to one of two labels, and this is the condition
that the code decides: the leaves of the tree are what stands in the code for them. -/
inductive ConditionOf (scopes : List Scope) (trap : String) :
    Tree.Expr → String → String → Stmt → Condition → Prop where
  | bool {span v yes no} :
    ConditionOf scopes trap (.bool span v) yes no (jumpTo (if v then yes else no)) (.literal v)
  | and {span type left right yes no mid sl sr kl kr} :
    ConditionOf scopes trap left mid no sl kl → ConditionOf scopes trap right yes no sr kr →
    ConditionOf scopes trap (.binary span type .logAnd left right) yes no
      (.seq [sl, .label mid, sr]) (.and kl kr)
  | or {span type left right yes no mid sl sr kl kr} :
    ConditionOf scopes trap left yes mid sl kl → ConditionOf scopes trap right yes no sr kr →
    ConditionOf scopes trap (.binary span type .logOr left right) yes no
      (.seq [sl, .label mid, sr]) (.or kl kr)
  | not {span type x yes no st k} : ConditionOf scopes trap x no yes st k →
    ConditionOf scopes trap (.unary span type .logNot x) yes no st (.not k)
  | test {e yes no c x c'} : Tested e → ValueOf scopes trap e c x c' →
    ConditionOf scopes trap e yes no (.cjump x yes no) (.leaf x)

section

variable {scopes : List Scope} {trap yes no : String} {e : Tree.Expr} {st : Stmt} {k : Condition}
  {c c' : Compiling}

lemma conditionOf_of_branchOf {e yes no c st c'} :
    BranchOf scopes trap e yes no c st c' → ∃ k, ConditionOf scopes trap e yes no st k
  | .test ht hx => ⟨_, .test ht hx⟩
  | .bool => ⟨_, .bool⟩
  | .and hl hr => by
    obtain ⟨_, hkl⟩ := conditionOf_of_branchOf hl
    obtain ⟨_, hkr⟩ := conditionOf_of_branchOf hr
    exact ⟨_, .and hkl hkr⟩
  | .or hl hr => by
    obtain ⟨_, hkl⟩ := conditionOf_of_branchOf hl
    obtain ⟨_, hkr⟩ := conditionOf_of_branchOf hr
    exact ⟨_, .or hkl hkr⟩
  | .not h => by
    obtain ⟨_, hk⟩ := conditionOf_of_branchOf h
    exact ⟨_, .not hk⟩

/-- A register that the code of a condition does not move a value to keeps its value while the
condition is decided. -/
lemma holds_decide {cx : Context} {r : String} (hr : ∀ i, r ≠ retReg i)
    (h : ConditionOf scopes trap e yes no st k) (hm : r ∉ st.moved) :
    Along (Holds r) (k.decide cx) := by
  have C := course_holds cx hr
  induction h with
  | bool => exact C.pure _
  | and _ _ ihl ihr =>
    simp only [Stmt.moved, Stmt.movedAll, List.append_nil, nil_append, mem_append, not_or] at hm
    refine C.bind (ihl hm.1) fun b => ?_
    cases b with
    | true => exact ihr hm.2
    | false => exact C.pure _
  | or _ _ ihl ihr =>
    simp only [Stmt.moved, Stmt.movedAll, List.append_nil, nil_append, mem_append, not_or] at hm
    refine C.bind (ihl hm.1) fun b => ?_
    cases b with
    | true => exact C.pure _
    | false => exact ihr hm.2
  | not _ ih => exact C.bind (ih hm) fun _ => C.pure _
  | test _ _ => exact C.bind (holds_expr hr hm) fun _ => C.bind (C.take _ _) fun _ => C.pure _

lemma of_materialize {x : Expr} (h : materialize (expr scopes trap e).branch c = .ok (x, c')) :
    ∃ r yes done test k, x = .eseq (flagCode (.temp r) test yes done) (.temp r) ∧
      ConditionOf scopes trap e yes done test k ∧ r ∉ test.moved ∧ ∀ i, r ≠ retReg i := by
  simp only [materialize, newTemp_bind, newLabel_bind] at h
  obtain ⟨test, ht, rfl⟩ := StateT.bind_pure_eq_ok h
  have hbranch := (byRules_expr scopes trap e).branch ht
  obtain ⟨k, hk⟩ := conditionOf_of_branchOf hbranch
  refine ⟨_, _, _, test, k, rfl, hk, fun hmem => ?_, ne_retReg_numbered _ _⟩
  obtain ⟨hint, n, hn, hlt, -⟩ := (moved_branch hbranch).2 _ hmem
  have := (numbered_inj.1 hn).2
  simp only at hlt
  omega

end

end Compile

end TreeMachine.Structured

namespace TreeMachine.Machine

open Structured
open Structured.Compile
open Linear

/-! ### The run of a condition -/

/-- The run stands before the label of an outcome. -/
def Chosen (M : Setup) (s0 : State) (yes no : String) (S : Operands) (b : Bool) (ρ : Env)
    (s : State) : Prop :=
  ∃ addr t, M.program.labels[if b then yes else no]? = some addr ∧ s = s0.stand addr ρ S t

/-- The run stands after code that has left the value of a register. -/
def Flagged (s0 : State) (b : Nat) (r : String) (S : Operands) (v : Int32) (ρ : Env)
    (s : State) : Prop :=
  Pushed s0 b S (.reg r (some v)) ρ s

section

variable {M : Setup} {Q : State → Prop} {cx : Context} {ok : String → Prop} {s0 : State}
  {G S : Operands} {lo a : Nat} {esc scope : List String} {ρ : Env} {t : List Called}
  {scopes : List Tree.Scope} {trap yes no : String} {e : Tree.Expr} {st : Stmt} {k : Condition}

variable (M Q cx s0 G lo esc) in
/-- The machine decides a condition, wherever its code stands. -/
def FollowsTest (yes no : String) (st : Stmt) (k : Condition) : Prop :=
  ∀ ⦃a ρ S t⦄, Site M.program s0 lo a (itemsOf st) → Level M.program s0 G a S →
    Lands M Q cx.budget (leaving M Q cx.mode.care s0 esc [] S) (Chosen M s0 yes no S)
      (s0.stand a ρ S t) (k.decide cx ρ)

namespace Scene

variable (sc : Scene M Q cx ok s0 G lo)

include sc

lemma literal {b : Bool} (hlab : (M.program.labels[if b then yes else no]?).isSome) :
    FollowsTest M Q cx s0 G lo esc yes no (Structured.Compile.jumpTo (if b then yes else no))
      (.literal b) := by
  intro a ρ S t hs hl
  rw [Structured.Compile.jumpTo, itemsOf] at hs
  obtain ⟨hs1, hs2⟩ := hs.append
  obtain ⟨addr, haddr⟩ := Option.isSome_iff_exists.1 hlab
  have hl1 := hl.expr hs1.placed
    (o := .symbol (if b then yes else no) M.program.labels[if b then yes else no]?)
  refine sc.next hs1 (sc.watched hs1 hl hl.le (by simp [takes])) (exec_name _) ?_
  have hq := sc.watched (ρ := ρ) (t := t) hs2 hl1 (Nat.add_le_add_right hl.le 1) (by simp [takes])
  rw [haddr] at hq ⊢
  exact .step hq (step_goto (Nat.le_trans sc.lo_le hs2.lo_le) hs2.lt_stop hs2.code exec_jump)
    (.done ⟨addr, t, haddr, rfl⟩)

lemma leaf {x : Expr} (hx : FollowsExpr M Q cx s0 G lo esc x)
    (hyes : (M.program.labels[yes]?).isSome) (hno : (M.program.labels[no]?).isSome) :
    FollowsTest M Q cx s0 G lo esc yes no (.cjump x yes no) (.leaf x) := by
  intro a ρ S t hs hl
  rw [itemsOf] at hs
  obtain ⟨hs1, hs2⟩ := hs.append
  refine sc.operand hx hs1 hs2 rfl hl (Nat.add_le_add_right hl.le 1) (suffix_refl _)
    fun {o v ρ1 ρ2 t1} hv hq => ?_
  have hsome : (M.program.labels[if v ≠ 0 then yes else no]?).isSome := by
    split
    · exact hyes
    · exact hno
  obtain ⟨addr, haddr⟩ := Option.isSome_iff_exists.1 hsome
  refine .step hq
    (step_goto (Nat.le_trans sc.lo_le hs2.lo_le) hs2.lt_stop hs2.code (exec_cjump hv haddr))
    (.done ⟨addr, t1, ?_, rfl⟩)
  simpa only [bne_iff_ne] using haddr

omit sc in
/-- The code of two conditions with a label between them: where the left side goes to the label,
the right side is decided. -/
lemma joined {mid sl sr kr} (hr : FollowsTest M Q cx s0 G lo esc yes no sr kr)
    (hs : Site M.program s0 lo a (itemsOf (.seq [sl, .label mid, sr])))
    (hl : Level M.program s0 G a S) {addr} (haddr : M.program.labels[mid]? = some addr) :
    Lands M Q cx.budget (leaving M Q cx.mode.care s0 esc [] S) (Chosen M s0 yes no S)
      (s0.stand addr ρ S t) (kr.decide cx ρ) := by
  rw [itemsOf] at hs
  obtain ⟨hs1, hs23⟩ := hs.append.1.append
  obtain ⟨hs2, hs3⟩ := hs23.append
  obtain rfl : a + extent (itemsOf sl) = addr := Option.some.inj (hs2.placed.1.symm.trans haddr)
  exact hr hs3.append.1 (hl.stmt hs1.placed)

end Scene

/-- The machine decides a condition. -/
lemma follows_condition (sc : Scene M Q cx ok s0 G lo)
    (hesc : ∀ l ∈ esc, (M.program.labels[l]?).isSome)
    (h : ConditionOf scopes trap e yes no st k) (hst : st.Confined ok esc scope)
    (hscope : ∀ l ∈ scope, (M.program.labels[l]?).isSome) :
    FollowsTest M Q cx s0 G lo esc yes no st k := by
  have hlabels : ∀ {a : Nat} {ss : List Stmt} {scope : List String},
      Site M.program s0 lo a (itemsOf (.seq ss)) →
      (∀ l ∈ scope, (M.program.labels[l]?).isSome) →
      ∀ l ∈ labelsIn ss ++ scope, (M.program.labels[l]?).isSome := by
    intro a ss scope hs hscope l hl
    rcases mem_append.1 hl with hl | hl
    · exact isSome_of_mem_labelsIn (Site.append hs).1.placed hl
    · exact hscope l hl
  induction h generalizing scope with
  | bool => exact sc.literal (hst.elim (hscope _) (hesc _))
  | and _ _ ihl ihr =>
    intro a ρ S t hs hl
    have hin := hlabels hs hscope
    have hleft := ihl hst.2.1 hin (Site.append hs).1.append.1 hl (ρ := ρ) (t := t)
    refine hleft.bind (.refl _) ?_
    rintro b ρ1 _ - ⟨addr, t1, haddr, rfl⟩
    cases b with
    | true => exact Scene.joined (ihr hst.2.2.2.1 hin) hs hl haddr
    | false => exact .done ⟨addr, t1, haddr, rfl⟩
  | or _ _ ihl ihr =>
    intro a ρ S t hs hl
    have hin := hlabels hs hscope
    have hleft := ihl hst.2.1 hin (Site.append hs).1.append.1 hl (ρ := ρ) (t := t)
    refine hleft.bind (.refl _) ?_
    rintro b ρ1 _ - ⟨addr, t1, haddr, rfl⟩
    cases b with
    | true => exact .done ⟨addr, t1, haddr, rfl⟩
    | false => exact Scene.joined (ihr hst.2.2.2.1 hin) hs hl haddr
  | not _ ih =>
    intro a ρ S t hs hl
    refine (ih hst hscope hs hl).bind (.refl _) ?_
    rintro b ρ1 _ - ⟨addr, t1, haddr, rfl⟩
    refine .done ⟨addr, t1, ?_, rfl⟩
    cases b <;> exact haddr
  | test _ _ =>
    exact sc.leaf (follows_expr sc hesc _ hst.1) (hst.2.1.elim (hscope _) (hesc _))
      (hst.2.2.elim (hscope _) (hesc _))

lemma Scene.readFlag {ss r v n X} (sc : Scene M Q cx ok s0 G lo)
    (hs : Site M.program s0 lo a (itemsOfExpr (.eseq (.seq ss) (.temp r))))
    (hl : Level M.program s0 G a S) (hv : ρ.regs.get? r = some v) :
    Lands M Q n X (Flagged s0 (a + extent (itemsOfExpr (.eseq (.seq ss) (.temp r)))) r S)
      (s0.stand (a + extent (itemsOfAll ss)) ρ S t) (.ok v ρ) := by
  rw [itemsOfExpr, itemsOf, itemsOfExpr, append_assoc, append_assoc] at hs
  obtain ⟨hs1, hs234⟩ := hs.append
  obtain ⟨hs2, hs34⟩ := hs234.append
  obtain ⟨hs3, hs4⟩ := hs34.append
  have hl1 := hl.stmts hs1.placed
  have hl2 : Level M.program s0 G (a + extent (itemsOfAll ss) + 1) S :=
    hl1.append hs2.placed (show _ = (([] : List Operand).length : Int) from rfl)
  have hl3 := hl2.expr (x := .temp r) hs3.placed (o := .reg r (some v))
  refine sc.next hs2 (sc.watched hs2 hl1 hl1.le (by simp [takes])) exec_seq ?_
  refine sc.next hs3 (sc.watched hs3 hl2 hl2.le (by simp [takes])) (exec_temp r) ?_
  rw [hv]
  refine sc.next hs4 (sc.watched hs4 hl3 hl3.le (by simp [takes])) exec_eseq (.done ⟨t, ?_⟩)
  simp [itemsOfExpr, itemsOf, extent, add_assoc]

/-- The code that makes a value of a condition leaves one or zero. -/
lemma Scene.flag {r done : String} {test : Stmt} (sc : Scene M Q cx ok s0 G lo)
    (hesc : ∀ l ∈ esc, (M.program.labels[l]?).isSome)
    (h : ConditionOf scopes trap e yes done test k) (hm : r ∉ test.moved) (hr : ∀ i, r ≠ retReg i)
    (hconf : (flagCode (.temp r) test yes done).Confined ok esc [])
    (hs : Site M.program s0 lo a (itemsOfExpr (.eseq (flagCode (.temp r) test yes done) (.temp r))))
    (hl : Level M.program s0 G a S) :
    Lands M Q cx.budget (leaving M Q cx.mode.care s0 esc [] S)
      (Flagged s0 (a + extent (itemsOfExpr (.eseq (flagCode (.temp r) test yes done) (.temp r)))) r
        S)
      (s0.stand a ρ S t) (k.flag cx r ρ) := by
  have hcode : Site M.program s0 lo a (itemsOfAll [.move (.temp r) (.const 0), test, .label yes,
      .move (.temp r) (.const 1), .label done]) := by
    rw [itemsOfExpr, flagCode, itemsOf, append_assoc] at hs
    exact hs.append.1.append.1
  obtain ⟨hs0, -, -⟩ := hcode.nth (i := 0) rfl
  obtain ⟨hs1, hbefore, -⟩ := hcode.nth (i := 1) rfl
  obtain ⟨-, -, hafter⟩ := hcode.nth (i := 2) rfl
  obtain ⟨hs3, hbefore', hend⟩ := hcode.nth (i := 3) rfl
  obtain ⟨-, -, hend'⟩ := hcode.nth (i := 4) rfl
  have hyes := address_of_label hcode.placed (i := 2) rfl
  have hdone := address_of_label hcode.placed (i := 4) rfl
  simp only [itemsOf, extent, add_zero] at hafter hend'
  rw [← hafter] at hyes
  rw [← hend'] at hdone
  have htest := follows_condition sc hesc h hconf.2.2.1 fun l hmem =>
    isSome_of_mem_labelsIn hcode.placed (by simpa using hmem)
  have hzero : Lands M Q cx.budget (leaving M Q cx.mode.care s0 esc [] S)
      (Passed s0 _ S) (s0.stand a ρ S t) (Eval.setRegister r 0 ρ) :=
    sc.moveTemp (sc.const 0) hs0 hl
  refine hzero.bind (.refl _) ?_
  rintro _ ρ0 _ hset ⟨t0, rfl⟩
  obtain rfl : { ρ with regs := ρ.regs.set r 0 } = ρ0 := by cases hset; rfl
  refine (htest hs1 (hl.stmts hbefore)).bind (.refl _) ?_
  rintro b ρ1 _ hdecide ⟨addr, t1, haddr, rfl⟩
  cases b with
  | true =>
    obtain rfl := Option.some.inj (hyes.symm.trans haddr)
    have hone : Lands M Q cx.budget (leaving M Q cx.mode.care s0 esc [] S)
        (Passed s0 _ S) (s0.stand _ ρ1 S t1) (Eval.setRegister r 1 ρ1) :=
      sc.moveTemp (sc.const 1) hs3 (hl.stmts hbefore')
    refine hone.bind (.refl _) ?_
    rintro _ ρ2 _ hset ⟨t2, rfl⟩
    obtain rfl : { ρ1 with regs := ρ1.regs.set r 1 } = ρ2 := by cases hset; rfl
    rw [add_assoc, ← hend, ← hend']
    exact sc.readFlag (ρ := { ρ1 with regs := ρ1.regs.set r 1 }) hs hl
      (Registers.get?_set_self _ _ _)
  | false =>
    obtain rfl := Option.some.inj (hdone.symm.trans haddr)
    -- nothing has been moved to the register since
    have hkeep : Eval.Along (Structured.Holds r) (k.decide cx) :=
      Structured.Compile.holds_decide hr h hm
    replace hkeep := hkeep { ρ with regs := ρ.regs.set r 0 }
    rw [hdecide] at hkeep
    exact sc.readFlag (ρ := ρ1) hs hl (hkeep 0 (Registers.get?_set_self _ _ _))

end

/-! ### The run from a state -/

/-- The run from `s` goes on as an evaluation says that code of the running frame has. Where the
evaluation gives something the run comes to a state that `fin` describes; where it is given up,
the run ends, leaves the frame or goes to the trap of the function in the same world, or it is
as long as the budget asks. -/
def GoesOn {α : Type} (M : Setup) (s : State) (fuel : Nat) (fin : α → Env → State → Prop) :
    EStateM.Result Stop Env α → Prop
  | .ok x ρ => ∃ s', Reaches M s s' ∧ fin x ρ s'
  | .error (.fault c) ρ => ∃ s1 s2, Reaches M s s1 ∧ step M s1 = .error c s2 ∧ ρ.world = s2.world
  | .error (.target c _) ρ =>
    ∃ s1 s2, Reaches M s s1 ∧ step M s1 = .error c s2 ∧ ρ.world = s2.world
  | .error (.goto l) ρ => l = trapOf s.frame.fn.name ∧ ∃ b S t, M.program.labels[l]? = some b ∧
    Reaches M s (s.stand b ρ S t)
  | .error (.leave vs) ρ => ∃ s1 b S t, Reaches M s s1 ∧
    step M s1 = leave M.program vs (s.stand b ρ S t)
  | .error .unset _ => False
  | .error .exhausted _ => ∃ n s', fuel ≤ n ∧ Steps M (fun _ => True) n s s'

section

variable {M : Setup} {s : State} {a : Nat}


lemma GoesOn.of_lands {α : Type} {fuel : Nat} {esc : List String} {S : Operands}
    {fin : α → Env → State → Prop} {r : EStateM.Result Stop Env α}
    (hesc : ∀ l ∈ esc, l = trapOf s.frame.fn.name)
    (h : Lands M (fun _ => True) fuel
      (leaving M (fun _ => True) .fills (s.cleared M.program a) esc [] S) fin s r) :
    GoesOn M s fuel fin r := by
  obtain ⟨k, s', hrun, hm⟩ := h
  have hreach : Reaches M s s' := ⟨k, hrun⟩
  cases r with
  | ok x ρ => exact ⟨s', hreach, hm⟩
  | error stop ρ =>
    cases stop with
    | fault c =>
      obtain ⟨-, c', s'', hstep, ⟨rfl, -⟩, hw⟩ := hm
      exact ⟨s', s'', hreach, hstep, hw⟩
    | target c src =>
      obtain ⟨⟨-, c', s'', hstep, ⟨rfl, -⟩, hw⟩, -⟩ := hm
      exact ⟨s', s'', hreach, hstep, hw⟩
    | goto l =>
      obtain ⟨-, b, S', t, hb, rfl, ⟨hl, -⟩ | ⟨hl, -⟩⟩ := hm
      · simp at hl
      · exact ⟨hesc l hl, b, S', t, hb, hreach⟩
    | leave vs =>
      obtain ⟨-, b, S', t, hstep, -⟩ := hm
      exact ⟨s', b, S', t, hreach, hstep⟩
    | unset => exact hm.1 rfl
    | exhausted => exact ⟨k, s', hm, hrun⟩

/-- The code of a condition decides it by short-circuit evaluation. The run that comes to the code
of a test with two labels evaluates the leaves that are reached, in order, and then stands before
the label of the outcome with the operands it had; the run that comes to the code of the value
ends after it, with one or zero in a new register on top of the operands it had. -/
theorem goesOn_condition (hp : Program.ofUnit u = .ok M.program)
    (hconf : ∀ f ∈ u.functions, f.Confined (Callable u)) (fuel : Nat) :
    (∀ {yes no c st c'}, (Structured.Compile.expr scopes trap e).branch yes no c = .ok (st, c') →
      Before M u s (.stmt st) a →
      ∃ k, ConditionOf scopes trap e yes no st k ∧
        GoesOn M s fuel (Chosen M s yes no s.operands) (k.decide (s.context u M fuel) s.env)) ∧
    (∀ {c x c'}, Structured.Compile.materialize (Structured.Compile.expr scopes trap e).branch c =
        .ok (x, c') → Before M u s (.expr x) a →
      ∃ k r yes done test, x = .eseq (flagCode (.temp r) test yes done) (.temp r) ∧
        ConditionOf scopes trap e yes done test k ∧
        GoesOn M s fuel (Flagged s (a + extent (itemsOfExpr x)) r s.operands)
          (k.flag (s.context u M fuel) r s.env)) := by
  constructor
  · intro yes no c st c' hst hbefore
    obtain ⟨k, hk⟩ := Structured.Compile.conditionOf_of_branchOf
      ((Structured.Compile.byRules_expr scopes trap e).branch hst)
    obtain ⟨hsite, hlo, hlevel, esc, hesc, scope, hscope, hconfined⟩ := hbefore.stands hconf
    have sc := scene_of_unit (a := a) hp hconf s fuel hlo
    have hrun := follows_condition sc (fun l hl => (hesc l hl).2) hk hconfined hscope (ρ := s.env)
      (t := s.trace) hsite hlevel
    have hself : (s.cleared M.program a).stand a s.env s.operands s.trace = s :=
      State.stand_env hbefore.ip
    rw [hself] at hrun
    exact ⟨k, hk, .of_lands (fun l hl => (hesc l hl).1) hrun⟩
  · intro c x c' hx hbefore
    obtain ⟨r, yes, done, test, k, rfl, hk, hmoved, hret⟩ := Structured.Compile.of_materialize hx
    obtain ⟨hsite, hlo, hlevel, esc, hesc, hcode, -⟩ := hbefore.stands hconf
    have sc := scene_of_unit (a := a) hp hconf s fuel hlo
    have hrun := sc.flag (fun l hl => (hesc l hl).2) hk hmoved hret hcode (ρ := s.env)
      (t := s.trace) hsite hlevel
    have hself : (s.cleared M.program a).stand a s.env s.operands s.trace = s :=
      State.stand_env hbefore.ip
    rw [hself] at hrun
    exact ⟨k, r, yes, done, test, rfl, hk, .of_lands (fun l hl => (hesc l hl).1) hrun⟩

end

def guard : Tree.Expr :=
  .binary default none .logOr (.unary default none .logNot (.call default none "g" []))
    (.call default none "g" [])

/-- The code of `guard` as a test, with a label of its own. -/
def guardCode (mid yes no : String) : Stmt :=
  .seq [.cjump (.call (.name "g") []) mid yes, .label mid, .cjump (.call (.name "g") []) yes no]

def guardFlag : Expr :=
  .eseq (flagCode (.temp "b.1") (guardCode "or.rhs.4" "bool.true.2" "bool.done.3") "bool.true.2"
    "bool.done.3") (.temp "b.1")

/-- A unit in which `main` tests `guard` and returns its value where it holds. -/
def guarded : CodeUnit where
  name := "guarded"
  functions := [
    { name := "g", params := [], body := .seq [.ret [.const 0]] },
    { name := "main", params := [],
      body := .seq [guardCode "or.rhs.1" "yes" "no", .label "no", .ret [.const 7], .label "yes",
        .ret [guardFlag]] }]

lemma confined_guarded : ∀ f ∈ guarded.functions, f.Confined (Callable guarded) := by
  have hcall : Callable guarded "g" := .inl rfl
  intro f hf
  simp only [guarded, mem_cons, not_mem_nil, or_false] at hf
  rcases hf with rfl | rfl
  · exact Function.confined_of_seq rfl
      (by simp [Stmt.ConfinedAll, Stmt.Confined, Expr.ConfinedAll, Expr.Confined])
  · refine Function.confined_of_seq rfl ?_
    simp [Stmt.ConfinedAll, Stmt.Confined, Expr.ConfinedAll, Expr.Confined, hcall, guardCode,
      guardFlag, flagCode, labelsIn, Stmt.label?]

lemma guard_eq {yes no mid : String} {k : Condition}
    (h : ConditionOf [] "" guard yes no (guardCode mid yes no) k) :
    k = .or (.not (.leaf (.call (.name "g") []))) (.leaf (.call (.name "g") [])) := by
  cases h with
  | or hl hr =>
    cases hr
    cases hl with
    | not h => cases h; rfl
    | test ht _ => exact ht.elim

/-- `guard` holds as `g` returns zero: the run comes to the label for it, and the value made of
`guard` there is one. -/
theorem goesOn_guard :
    ∃ m s ρ ρ' t t', ofUnit? (some guarded) {} = .ok m ∧ m.start "main" 3 [] = .ok s ∧
      Reaches m.setup s (s.stand 12 ρ s.operands t) ∧
      Reaches m.setup (s.stand 12 ρ s.operands t)
        (s.stand 28 ρ' (s.operands.push (.reg "b.1" (some 1))) t') := by
  let k : Condition := .or (.not (.leaf (.call (.name "g") []))) (.leaf (.call (.name "g") []))
  have hrun : ((ofUnit? (some guarded) {}).toOption.bind fun m =>
    (m.start "main" 3 []).toOption.map fun s =>
      decide (m.setup.program.entry "main" = some ⟨"main", 3, 30⟩ ∧
        s.frame.fn = ⟨"main", 3, 30⟩ ∧ s.frame.ip = 3 ∧
        m.setup.program.level 12 = m.setup.program.level 3 ∧
        given ((do
          let b ← k.decide (s.context guarded m.setup 20)
          let v ← k.flag (s.context guarded m.setup 20) "b.1"
          return (b, v) : Eval (Bool × Int32)) s.env) = some (true, 1))) = some true := by
    decide +kernel
  obtain ⟨m, hm, hrun⟩ := Except.bind_eq_some.1 hrun
  obtain ⟨s, hs, hrun⟩ := Except.map_eq_some.1 hrun
  obtain ⟨hentry, hfn, hip, hlevel, hgiven⟩ := of_decide_eq_true hrun
  have hp := program_of_ofUnit? hm
  have hmem : guarded.functions[1] ∈ guarded.functions := getElem_mem _
  have hh := holds_of_entry hm hmem hentry
  have hholds : Program.Holds m.setup.program guarded.functions[1] s.frame.fn := hfn ▸ hh
  have hstart : s.frame.fn.start = 3 := by rw [hfn]
  have hyes : m.setup.program.labels["yes"]? = some 12 :=
    address_of_label (i := 3) hh.placed.append.1 rfl
  have htest : Before m.setup guarded s (.stmt (guardCode "or.rhs.1" "yes" "no")) 3 := by
    refine ⟨⟨_, hmem, hholds, ?_, by simp [guarded, guardCode]⟩, hip, ?_⟩
    · rw [hstart]
      exact .part [] _ rfl (.self _ 3)
    · rw [hstart]
      omega
  have hflag : ∀ ρ t, Before m.setup guarded (s.stand 12 ρ s.operands t) (.expr guardFlag) 12 := by
    intro ρ t
    refine ⟨⟨_, hmem, hholds, ?_, by simp⟩, rfl, ?_⟩
    · rw [State.stand_fn, hstart]
      exact .part [_, _, _, _] [] rfl (.part [] [] rfl (.self _ 12))
    · rw [State.stand_fn, hstart, hlevel]
      omega
  have hcode : (Structured.Compile.expr [] "" guard).branch "yes" "no" default =
      .ok (guardCode "or.rhs.1" "yes" "no", { labels := 1 }) := rfl
  have hcode' : Structured.Compile.materialize (Structured.Compile.expr [] "" guard).branch
      { labels := 1 } = .ok (guardFlag, { labels := 4, temps := 1 }) := rfl
  obtain ⟨_, hk, hgo⟩ := (goesOn_condition hp confined_guarded 20).1 hcode htest
  obtain rfl := guard_eq hk
  cases hd : k.decide (s.context guarded m.setup 20) s.env with
  | error e ρ => rw [bind_error hd] at hgiven; cases hgiven
  | ok b ρ =>
    rw [bind_ok hd] at hgiven
    rw [hd] at hgo
    cases hv : k.flag (s.context guarded m.setup 20) "b.1" ρ with
    | error e ρ' => rw [bind_error hv] at hgiven; cases hgiven
    | ok v ρ' =>
      rw [bind_ok hv] at hgiven
      obtain ⟨rfl, rfl⟩ : b = true ∧ v = 1 := by cases hgiven; exact ⟨rfl, rfl⟩
      obtain ⟨_, hreach, addr, t, haddr, rfl⟩ := hgo
      obtain rfl := Option.some.inj (hyes.symm.trans haddr)
      obtain ⟨_, _, _, _, _, hshape, hk', hgo'⟩ :=
        (goesOn_condition hp confined_guarded 20).2 hcode' (hflag ρ t)
      cases hshape
      obtain rfl := guard_eq hk'
      have hv' : k.flag ((s.stand 12 ρ s.operands t).context guarded m.setup 20) "b.1"
        (s.stand 12 ρ s.operands t).env = .ok 1 ρ' := hv
      rw [hv'] at hgo'
      obtain ⟨_, hreach', t', rfl⟩ := hgo'
      exact ⟨m, s, ρ, ρ', t, t', hm, hs, hreach, hreach'⟩

end TreeMachine.Machine
