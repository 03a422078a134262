import TreeMachine.Proofs.Nested
import TreeMachine.Proofs.Safety

/-!
# Linear code runs as trees are evaluated

Code without jumps has a meaning by recursion on the tree alone: the parts of a node are
evaluated from left to right, and then the node acts on the operands that its parts have left.
The machine runs the linear form of such a tree with just that result, wherever the tree
stands in a unit, and whatever else the functions do that it calls. They may be any code that
leaves the operands alone which were on the stack before.
-/

open List

namespace TreeMachine.Structured

open Linear

/-! ### Trees -/

/-- A tree in which nothing jumps or returns. -/
inductive Node.JumpFree : Node → Prop where
  | intro {n : Node} (jump : ¬IsJump n) (ret : ∀ xs, n ≠ .stmt (.ret xs))
    (parts : ∀ c ∈ n.children, JumpFree c) : JumpFree n

/-! ### Evaluation -/

namespace Eval

/-- One evaluation after the other; the operands they leave, together. -/
def gather : List (Eval (List Operand)) → Eval (List Operand)
  | [] => return []
  | m :: ms => do
    let os ← m
    let ps ← gather ms
    return os ++ ps

def assign (target : Operand) (v : Int32) : Eval Unit :=
  match target with
  | .reg name _ => setRegister name v
  | .mem addr _ => onWorld (World.store addr v)
  | o => throw (.fault (.operandTag "move" o.kind))

end Eval

open Eval

/-- What a node does with the operands that its parts have left. -/
def Node.act (p : Program) (call : Operand → List Int32 → EStateM Stop World (List Int32)) :
    Node → List Operand → Eval (List Operand)
  | .expr (.const v), _ => return [.value v]
  | .expr (.temp name), _ => return [← readRegister .fills name]
  | .expr (.name l), _ => return [.symbol l p.labels[l]?]
  | .expr (.mem _), [o] => do
    let addr ← take .fills o
    return [.mem addr (← load addr)]
  | .expr (.binop op _ _), [l, r] => do
    let l ← take .fills l
    let r ← take .fills r
    match Word.binop op l r with
    | .ok v => return [.value v]
    | .error cause => throw (.fault cause)
  | .expr (.unop op _), [o] => return [.value (Word.unop op (← take .fills o))]
  | .expr (.call _ _), target :: args => do
    let results ← callBy call target (← takeAll .fills args)
    return [.value (results.headD 0)]
  | .expr (.eseq _ _), os => return os
  | .stmt (.move _ _), [target, src] => do
    assign target (← take .fills src)
    return []
  | .stmt (.call returns callee _), target :: args => do
    let results ← callBy call target (← takeAll .fills args)
    if 0 < returns ∧ (results.length : Int) < returns then
      throw (.fault (.returnCount callee.text returns results.length))
    return []
  | _, _ => return []

/-- Evaluates a tree: its parts in order, and then the node. -/
def Node.compute (p : Program) (call : Operand → List Int32 → EStateM Stop World (List Int32))
    (n : Node) : Eval (List Operand) :=
  gather (n.children.attach.map fun c => Node.compute p call c.1) >>= n.act p call
termination_by sizeOf n
decreasing_by exact Node.sizeOf_lt_of_mem_children c.2

lemma Node.compute_eq (p : Program)
    (call : Operand → List Int32 → EStateM Stop World (List Int32)) (n : Node) :
    n.compute p call = gather (n.children.map (Node.compute p call)) >>= n.act p call := by
  rw [Node.compute]
  simp

end TreeMachine.Structured

namespace TreeMachine.Machine

open Structured
open Linear

/-! ### Calls -/

/-- The state in which a function starts to run on a stack of its own. -/
def alone (fn : Range) (addr : Int) (args : List Int32) (depth : Nat) (world : World) : State where
  world := world
  operands := .empty
  frame := newFrame fn addr args 0
  depth := depth + 1

/-- Calls what an operand stands for, for the function `caller` that runs at some depth. A
function of the program runs on a stack of its own, within a number of steps. -/
def applied (M : Setup) (fuel depth : Nat) (caller : String) (target : Operand)
    (args : List Int32) : EStateM Stop World (List Int32) := fun world =>
  match target with
  | .symbol name none => callRoutine caller name args world
  | .symbol name (some addr) => enter name addr world
  | .value v => enter "" v.toInt world
  | o => .error (.fault (.operandTag "call" o.kind)) world
where
  enter (name : String) (addr : Int) (world : World) : EStateM.Result Stop World (List Int32) :=
    match callee M.program name addr with
    | .error c => .error (.fault c) world
    | .ok fn =>
      if M.maxDepth ≤ depth then .error (.fault (.callDepthExceeded depth)) world
      else
        match run M fuel (alone fn addr args depth world) with
        | none => .error .exhausted world
        | some (.ok results, s) => .ok results s.world
        | some (.error c, s) => .error (.fault c) s.world

/-! ### Code that runs through -/

/-- The run is in the code between two addresses, in the frame that runs in the state `s0`, or in
a function called from there. -/
def Amid (s0 : State) (lo hi : Nat) (s : State) : Prop :=
  s0.waiting.length < s.waiting.length ∨
    s.waiting.length = s0.waiting.length ∧ (lo : Int) ≤ s.frame.ip ∧ s.frame.ip < hi

/-- No function that is called while the code runs takes operands from below its frame. -/
def Contained (M : Setup) (s0 : State) (lo hi : Nat) : Prop :=
  ∀ {s}, Path M (Amid s0 lo hi) s0 s → s0.waiting.length < s.waiting.length → Fed M.program s

/-- A run of code without jumps ends early only with a fault. -/
def failing (M : Setup) (Q : State → Prop) : Exits Env where
  go _ _ _ := False
  home _ _ _ := False
  fault c ρ s := Q s ∧ ∃ s', step M s = .error c s' ∧ s'.world = ρ.world
  target _ _ _ _ := False
  unset _ := False

/-- The run has come to an address, with `k` more operands. -/
def Arrived (M : Setup) (Q : State → Prop) (s0 : State) (b : Nat) (S : Operands) (k : Nat)
    (os : List Operand) (ρ : Env) (s : State) : Prop :=
  os.length = k ∧ (∃ t, s = s0.stand b ρ (S.append os) t) ∧ Path M Q s0 s

section

variable (M : Setup) (s0 : State) (lo hi fuel : Nat)

/-- The machine follows an evaluation by running code, wherever the code stands between two
addresses. -/
def Computes (k : Nat) (is : List Item) (m : Eval (List Operand)) : Prop :=
  ∀ ⦃a ρ S t⦄, Placed M.program a is → lo ≤ a → a + extent is ≤ hi →
    Path M (Amid s0 lo hi) s0 (s0.stand a ρ S t) →
    Lands M (Amid s0 lo hi) fuel (failing M (Amid s0 lo hi))
      (Arrived M (Amid s0 lo hi) s0 (a + extent is) S k) (s0.stand a ρ S t) (m ρ)

end

section

variable {M : Setup} {s0 : State} {lo hi fuel k j a : Nat} {is is' : List Item} {n : Node}
  {m m' : Eval (List Operand)} {ρ : Env} {S : Operands} {t : List Called} {os : List Operand}

lemma Computes.nil : Computes M s0 lo hi fuel 0 [] (pure []) :=
  fun _ _ _ t _ _ _ hp => .done ⟨rfl, ⟨t, rfl⟩, hp⟩

lemma Computes.append (h : Computes M s0 lo hi fuel k is m)
    (h' : Computes M s0 lo hi fuel j is' m') :
    Computes M s0 lo hi fuel (k + j) (is ++ is')
      (do let os ← m; let ps ← m'; return os ++ ps) := by
  intro a ρ S t hplaced hlo hhi hp
  obtain ⟨hp1, hp2⟩ := hplaced.append
  rw [extent_append] at hhi
  refine (h hp1 hlo (by omega) hp).bind (.refl _) ?_
  rintro os ρ1 _ - ⟨hos, ⟨t1, rfl⟩, hpath⟩
  refine (h' hp2 (by omega) (by omega) hpath).bind (.refl _) ?_
  rintro ps ρ2 _ - ⟨hps, ⟨t2, rfl⟩, hpath2⟩
  refine .done ⟨by simp [hos, hps], ⟨t2, ?_⟩, hpath2⟩
  rw [Operands.append_append, extent_append, add_assoc]

lemma Computes.gather {ns : List Node} {f}
    (h : ∀ c ∈ ns, Computes M s0 lo hi fuel (leaves c) (itemsOfNode c) (f c)) :
    Computes M s0 lo hi fuel (ns.map leaves).sum (ns.flatMap itemsOfNode)
      (Eval.gather (ns.map f)) := by
  induction ns with
  | nil => exact Computes.nil
  | cons c ns ih =>
    exact (h c mem_cons_self).append (ih fun c' hc' => h c' (mem_cons_of_mem _ hc'))

/-! ### Nodes -/

lemma take_fills (o : Operand) (ρ : Env) : ∃ v ρ', Eval.take .fills o ρ = .ok v ρ' := by
  cases h : Eval.take .fills o ρ with
  | ok v ρ' => exact ⟨v, ρ', rfl⟩
  | error e ρ' => exact absurd rfl (unset_of_take_error h).2.1

lemma takeAll_fills (os : List Operand) (ρ : Env) :
    ∃ vs ρ', Eval.takeAll .fills os ρ = .ok vs ρ' := by
  cases h : Eval.takeAll .fills os ρ with
  | ok vs ρ' => exact ⟨vs, ρ', rfl⟩
  | error e ρ' => exact absurd rfl (unset_of_takeAll_error h).2.1

/-- Where a node stands that is about to run. -/
structure Ready (M : Setup) (s0 : State) (lo hi a : Nat) (n : Node) : Prop where
  start_le : s0.frame.fn.start ≤ lo
  le_stop : hi ≤ s0.frame.fn.stop
  lo_le : lo ≤ a
  lt_hi : a < hi
  code : M.program.code[a]? = some n

namespace Ready

variable (h : Ready M s0 lo hi a n)

include h

lemma amid : Amid s0 lo hi (s0.stand a ρ S t) := by
  have := h.lo_le
  have := h.lt_hi
  exact .inr ⟨rfl, by simp only [State.stand_ip]; omega, by simp only [State.stand_ip]; omega⟩

lemma le : s0.frame.fn.start ≤ a := le_trans h.start_le h.lo_le

lemma lt : a < s0.frame.fn.stop := lt_of_lt_of_le h.lt_hi h.le_stop

lemma next {ρ' l S'} (hp : Path M (Amid s0 lo hi) s0 (s0.stand a ρ S' t))
    (he : exec M.program n (s0.stand a ρ S' t) = .ok .next (s0.stand a ρ' (S.append l) t))
    (hl : l.length = k) :
    Lands M (Amid s0 lo hi) fuel (failing M (Amid s0 lo hi))
      (Arrived M (Amid s0 lo hi) s0 (a + 1) S k) (s0.stand a ρ S' t) (.ok l ρ') := by
  have hstep := step_next h.le h.lt h.code he
  exact .step h.amid hstep (.done ⟨hl, ⟨t, rfl⟩, hp.trans (Path.single h.amid hstep)⟩)

lemma fails {α : Type} {fin : α → Env → State → Prop} {ρ' : Env} {s' : State} {c : Fault}
    (he : exec M.program n (s0.stand a ρ S t) = .error c s') (hw : s'.world = ρ'.world) :
    Lands M (Amid s0 lo hi) fuel (failing M (Amid s0 lo hi)) fin (s0.stand a ρ S t)
      (.error (.fault c) ρ') :=
  .now ⟨h.amid, s', step_error h.le h.lt h.code he, hw⟩

end Ready

/-- The run of a call comes to a step that delivers the results. -/
def Delivers (M : Setup) (s0 : State) (lo hi a : Nat) (n : Node) (S : Operands)
    (results : List Int32) (ρ : Env) (s : State) : Prop :=
  Amid s0 lo hi s ∧ Path M (Amid s0 lo hi) s0 s ∧ ∃ ρ' t',
    step M s = returned n results (s0.stand a ρ' S t') ∧
      ρ = { ρ' with regs := ρ'.regs.setAll retReg 1 results }

section

variable {o : Operand} {vs : List Int32} {ρ' : Env} (h : Ready M s0 lo hi a n)
  (hcont : Contained M s0 lo hi) (hn : CallsWith n os.length)
  (hvs : Eval.takeAll .fills os ρ = .ok vs ρ')
  (hp : Path M (Amid s0 lo hi) s0 (s0.stand a ρ ((S.push o).append os) t))

include h hcont hn hvs hp

lemma lands_enter {name : String} {addr : Int} {world : World} (hworld : world = ρ'.world)
    (hd : dispatch M.program o vs (s0.stand a ρ' S t) =
      dispatch.enterAt M.program name addr (s0.stand a ρ' S t)) :
    Lands M (Amid s0 lo hi) fuel (failing M (Amid s0 lo hi)) (Delivers M s0 lo hi a n S)
      (s0.stand a ρ ((S.push o).append os) t)
      (match applied.enter M fuel s0.depth vs name addr world with
        | .ok results world => .ok results { regs := ρ'.regs.setAll retReg 1 results, world }
        | .error stop world => .error stop { ρ' with world }) := by
  subst hworld
  unfold applied.enter
  unfold dispatch.enterAt at hd
  cases hcallee : callee M.program name addr with
  | error c =>
    rw [hcallee] at hd
    exact .now ⟨h.amid, _, step_call_error h.le h.lt h.code hn hvs hd, rfl⟩
  | ok fn =>
    rw [hcallee] at hd
    have hstep := step_call_inr h.le h.lt h.code hn hvs hd
    by_cases hdeep : M.maxDepth ≤ s0.depth
    · rw [if_pos hdeep] at hstep
      simp only [hdeep, if_true]
      exact .now ⟨h.amid, _, hstep, rfl⟩
    · rw [if_neg hdeep] at hstep
      simp only [hdeep, if_false]
      -- the function runs on top of the caller's operands and frames
      generalize ht : (if M.traced then
        ⟨fn.name, vs, s0.depth + 1⟩ :: t else t : List Called) = t1
      have hover : entered M (s0.stand a ρ' S t) fn addr vs =
          (alone fn addr vs s0.depth ρ'.world).atop S
            ((s0.stand a ρ' S t).frame :: s0.waiting) t1 := by
        have hops : S = Operands.empty.atop S := Operands.ext_items rfl
        have hbase : newFrame fn addr vs S.height = (newFrame fn addr vs 0).raise S.height := by
          simp [newFrame, Frame.raise]
        rw [← ht]
        unfold entered alone State.atop
        simp only [State.stand_operands, hbase, ← hops]
        rfl
      rw [hover] at hstep
      have halone : Alone M.program s0.depth (alone fn addr vs s0.depth ρ'.world) :=
        ⟨fun _ hw => (nomatch hw), rfl, rfl⟩
      have hrun := run_atop (M := M) (Q := Amid s0 lo hi) (B := S) (W := s0.waiting)
        (w := (s0.stand a ρ' S t).frame) (t := t1) (n := n)
        (by simpa only [State.stand_ip, Int.toNat_natCast] using h.code)
        (fun hlen => .inl hlen) fuel halone
        (fun hpath hlen => hcont (hp.trans (Path.head h.amid hstep hpath)) hlen)
      cases hr : run M fuel (alone fn addr vs s0.depth ρ'.world) with
      | none =>
        rw [hr] at hrun
        obtain ⟨s', hs'⟩ := hrun
        exact ⟨fuel + 1, s', .head h.amid hstep hs', Nat.le_succ _⟩
      | some r =>
        obtain ⟨outcome, s'⟩ := r
        rw [hr] at hrun
        cases outcome with
        | error c =>
          obtain ⟨i, u, u', hu, hq, hfail, hw⟩ := hrun
          exact ⟨i + 1, u, .head h.amid hstep hu, hq, u', hfail, hw⟩
        | ok results =>
          obtain ⟨i, u, t', hu, hq, hret⟩ := hrun
          have hsteps := Steps.head h.amid hstep hu
          exact ⟨i + 1, u, hsteps, hq, hp.trans ⟨i + 1, hsteps⟩,
            { ρ' with world := s'.world }, t', hret, rfl⟩

lemma lands_call :
    Lands M (Amid s0 lo hi) fuel (failing M (Amid s0 lo hi)) (Delivers M s0 lo hi a n S)
      (s0.stand a ρ ((S.push o).append os) t)
      (Eval.callBy (applied M fuel s0.depth s0.frame.fn.name) o vs ρ') := by
  match o with
  | .value v => exact lands_enter h hcont hn hvs hp rfl rfl
  | .symbol f (some addr) => exact lands_enter h hcont hn hvs hp rfl rfl
  | .mem _ _ | .reg _ _ =>
    exact .now ⟨h.amid, _, step_call_error h.le h.lt h.code hn hvs rfl, rfl⟩
  | .symbol f none =>
    unfold Eval.callBy applied callRoutine
    cases hr : Routine.ofName? f with
    | none =>
      have hd : dispatch M.program (.symbol f none) vs (s0.stand a ρ' S t) =
          .error (.unresolvedName f) (s0.stand a ρ' S t) := by
        simp only [dispatch, hr]
        rfl
      simp only [hr]
      exact .now ⟨h.amid, _, step_call_error h.le h.lt h.code hn hvs hd, rfl⟩
    | some r =>
      have hd := dispatch_routine (p := M.program) (s := s0) (a := a) (ρ := ρ') (S := S)
        (t := t) hr vs
      simp only [hr]
      cases hrun : r.run s0.frame.fn.name vs ρ'.world with
      | ok results world =>
        rw [hrun] at hd
        exact .done ⟨h.amid, hp, _, t, step_call_inl h.le h.lt h.code hn hvs hd, rfl⟩
      | error c world =>
        rw [hrun] at hd
        exact .now ⟨h.amid, _, step_call_error h.le h.lt h.code hn hvs hd, rfl⟩

end

section

variable (h : Ready M s0 lo hi a n) (hcont : Contained M s0 lo hi)

include h hcont

lemma lands_callNode {f o} (hn : CallsWith n os.length)
    (hp : Path M (Amid s0 lo hi) s0 (s0.stand a ρ ((S.push o).append os) t))
    (hf : ∀ {results ρ' t' s}, Amid s0 lo hi s → Path M (Amid s0 lo hi) s0 s →
      step M s = returned n results (s0.stand a ρ' S t') →
      Lands M (Amid s0 lo hi) fuel (failing M (Amid s0 lo hi))
        (Arrived M (Amid s0 lo hi) s0 (a + 1) S k) s
        (f results { ρ' with regs := ρ'.regs.setAll retReg 1 results })) :
    Lands M (Amid s0 lo hi) fuel (failing M (Amid s0 lo hi))
      (Arrived M (Amid s0 lo hi) s0 (a + 1) S k) (s0.stand a ρ ((S.push o).append os) t)
      ((Eval.takeAll .fills os >>= fun vs =>
        Eval.callBy (applied M fuel s0.depth s0.frame.fn.name) o vs >>= f) ρ) := by
  obtain ⟨vs, ρ', hvs⟩ := takeAll_fills os ρ
  rw [bind_ok hvs]
  refine (lands_call h hcont hn hvs hp).bind (.refl _) ?_
  rintro results _ s - ⟨hq, hpath, ρ2, t', hstep, rfl⟩
  exact hf hq hpath hstep

lemma lands_act (hjump : ¬IsJump n) (hret : ∀ xs, n ≠ .stmt (.ret xs))
    (hos : os.length = (n.children.map leaves).sum)
    (hp : Path M (Amid s0 lo hi) s0 (s0.stand a ρ (S.append os) t)) :
    Lands M (Amid s0 lo hi) fuel (failing M (Amid s0 lo hi))
      (Arrived M (Amid s0 lo hi) s0 (a + 1) S (leaves n)) (s0.stand a ρ (S.append os) t)
      (n.act M.program (applied M fuel s0.depth s0.frame.fn.name) os ρ) := by
  have hargs : ∀ xs : List Expr, ((xs.map Node.expr).map leaves).sum = xs.length := by
    intro xs
    induction xs with
    | nil => rfl
    | cons x xs ih => simp only [map_cons, sum_cons, ih, leaves, length_cons]; omega
  have hcall : ∀ {x xs}, os.length = (((x :: xs).map Node.expr).map leaves).sum →
      ∃ o os', os = o :: os' ∧ xs.length = os'.length ∧
        S.append os = (S.push o).append os' := fun {x xs} hos => by
    rw [hargs] at hos
    obtain ⟨o, os', rfl⟩ := exists_cons_of_length_eq_add_one hos
    exact ⟨o, os', rfl, (Nat.succ.inj hos).symm, Operands.ext_items (by simp)⟩
  have hstmts : ∀ ss : List Stmt, ((ss.map Node.stmt).map leaves).sum = 0 := by
    intro ss
    induction ss with
    | nil => rfl
    | cons st ss ih => simp only [map_cons, sum_cons, ih, leaves]
  match n with
  | .expr (.const v) =>
    obtain rfl := length_eq_zero_iff.1 hos
    exact h.next hp exec_const rfl
  | .expr (.temp name) =>
    obtain rfl := length_eq_zero_iff.1 hos
    have hread : Eval.readRegister .fills name ρ =
        .ok (.reg name (ρ.regs.get? name)) ρ := by
      unfold Eval.readRegister
      cases ρ.regs.get? name <;> rfl
    rw [Node.act, bind_ok hread]
    exact h.next hp (exec_temp name) rfl
  | .expr (.name l) =>
    obtain rfl := length_eq_zero_iff.1 hos
    exact h.next hp (exec_name l) rfl
  | .expr (.mem x) =>
    obtain ⟨o, rfl⟩ := length_eq_one_iff.1 hos
    obtain ⟨v, ρ', hv⟩ := take_fills o ρ
    rw [Node.act, bind_ok hv]
    have he := exec_mem (p := M.program) (s := s0) (a := a) (S := S) (t := t) (x := x) hv
    cases hw : ρ'.world.heap.load v with
    | ok w =>
      rw [hw] at he
      have hload : Eval.load v ρ' = .ok w ρ' := by
        simp only [Eval.load, Eval.onWorld, World.inspect, hw]
      rw [bind_ok hload]
      exact h.next hp he rfl
    | error c =>
      rw [hw] at he
      have hload : Eval.load v ρ' = .error (.fault c) ρ' := by
        simp only [Eval.load, Eval.onWorld, World.inspect, hw]
      rw [bind_error hload]
      exact h.fails he rfl
  | .expr (.binop op x y) =>
    obtain ⟨l, r, rfl⟩ := length_eq_two.1 hos
    obtain ⟨v, ρ1, hv⟩ := take_fills l ρ
    obtain ⟨w, ρ2, hw⟩ := take_fills r ρ1
    rw [Node.act, bind_ok hv, bind_ok hw]
    have he := exec_binop (p := M.program) (s := s0) (a := a) (S := S) (t := t) (x := x)
      (y := y) op hv hw
    cases hb : Word.binop op v w with
    | ok u =>
      rw [hb] at he
      exact h.next hp he rfl
    | error c =>
      rw [hb] at he
      exact h.fails he rfl
  | .expr (.unop op x) =>
    obtain ⟨o, rfl⟩ := length_eq_one_iff.1 hos
    obtain ⟨v, ρ', hv⟩ := take_fills o ρ
    rw [Node.act, bind_ok hv]
    exact h.next hp (exec_unop hv) rfl
  | .expr (.call x xs) =>
    obtain ⟨o, os, rfl, hlen, hpush⟩ := hcall hos
    rw [hpush] at hp ⊢
    refine lands_callNode h hcont (.inl ⟨x, xs, rfl, hlen⟩) hp ?_
    intro results ρ' t' s hq hpath hstep
    rw [returned_expr] at hstep
    exact .step hq hstep (.done ⟨rfl, ⟨t', rfl⟩, hpath.trans (Path.single hq hstep)⟩)
  | .expr (.eseq st x) =>
    have hone : os.length = 1 := by simpa [Node.children, leaves] using hos
    exact h.next hp exec_eseq hone
  | .stmt (.seq ss) =>
    obtain rfl := length_eq_zero_iff.1 (hos.trans (hstmts ss))
    exact h.next hp exec_seq rfl
  | .stmt (.move x y) =>
    obtain ⟨o1, o2, rfl⟩ := length_eq_two.1 hos
    obtain ⟨v, ρ', hv⟩ := take_fills o2 ρ
    rw [Node.act, bind_ok hv]
    cases o1 with
    | reg name u => exact h.next (l := []) hp (exec_move_temp hv) rfl
    | mem addr u =>
      have he := exec_move_mem (p := M.program) (s := s0) (a := a) (S := S) (t := t)
        (x := x) (y := y) (w := addr) (u := u) hv
      cases hw : World.store addr v ρ'.world with
      | ok z world =>
        rw [hw] at he
        have hassign : Eval.assign (.mem addr u) v ρ' = .ok () { ρ' with world } := by
          simp only [Eval.assign, Eval.onWorld, hw]
        rw [bind_ok hassign]
        exact h.next (l := []) hp he rfl
      | error c world =>
        rw [hw] at he
        have hassign : Eval.assign (.mem addr u) v ρ' =
            .error (.fault c) { ρ' with world } := by
          simp only [Eval.assign, Eval.onWorld, hw]
        rw [bind_error hassign]
        exact h.fails he rfl
    | value u | symbol f u =>
      exact h.fails (exec_move_other (S := S) hv (by simp) (by simp)) rfl
  | .stmt (.exp x) =>
    obtain ⟨o, rfl⟩ := length_eq_one_iff.1 hos
    exact h.next (l := []) hp exec_exp rfl
  | .stmt (.call returns x xs) =>
    obtain ⟨o, os, rfl, hlen, hpush⟩ := hcall hos
    rw [hpush] at hp ⊢
    refine lands_callNode h hcont (.inr ⟨returns, x, xs, rfl, hlen⟩) hp ?_
    intro results ρ' t' s hq hpath hstep
    rw [returned_stmt] at hstep
    by_cases hr : 0 < returns ∧ (results.length : Int) < returns
    · rw [if_pos hr] at hstep ⊢
      exact .now ⟨hq, _, hstep, rfl⟩
    · rw [if_neg hr] at hstep ⊢
      exact .step hq hstep (.done ⟨rfl, ⟨t', rfl⟩, hpath.trans (Path.single hq hstep)⟩)
  | .stmt (.label l) =>
    obtain rfl := length_eq_zero_iff.1 hos
    exact h.next (l := []) hp rfl rfl
  | .stmt .skip =>
    obtain rfl := length_eq_zero_iff.1 hos
    exact h.next (l := []) hp rfl rfl
  | .stmt (.jump x) => exact absurd (.inl ⟨x, rfl⟩) hjump
  | .stmt (.cjump x yes no) => exact absurd (.inr ⟨x, yes, no, rfl⟩) hjump
  | .stmt (.ret xs) => exact absurd rfl (hret xs)

end

/-! ### Trees -/

lemma Computes.own (hstart : s0.frame.fn.start ≤ lo) (hstop : hi ≤ s0.frame.fn.stop)
    (hcont : Contained M s0 lo hi) (hjump : ¬IsJump n) (hret : ∀ xs, n ≠ .stmt (.ret xs))
    (h : Computes M s0 lo hi fuel (n.children.map leaves).sum is m) :
    Computes M s0 lo hi fuel (leaves n) (is ++ ownItem n)
      (m >>= n.act M.program (applied M fuel s0.depth s0.frame.fn.name)) := by
  intro a ρ S t hplaced hlo hhi hp
  obtain ⟨hp1, hp2⟩ := hplaced.append
  rw [extent_append] at hhi ⊢
  refine (h hp1 hlo (by omega) hp).bind (.refl _) ?_
  rintro os ρ1 _ - ⟨hos, ⟨t1, rfl⟩, hpath⟩
  obtain rfl | ⟨l, rfl⟩ | hown := ownItem_cases n
  · obtain rfl := length_eq_zero_iff.1 hos
    exact .done ⟨rfl, ⟨t1, rfl⟩, hpath⟩
  · obtain rfl := length_eq_zero_iff.1 hos
    exact .done ⟨rfl, ⟨t1, rfl⟩, hpath⟩
  · rw [hown] at hp2 hhi ⊢
    simp only [extent] at hhi ⊢
    have hready : Ready M s0 lo hi (a + extent is) n :=
      ⟨hstart, hstop, by omega, by omega, hp2.node⟩
    exact lands_act hready hcont hjump hret hos hpath

lemma computes_node (hstart : s0.frame.fn.start ≤ lo) (hstop : hi ≤ s0.frame.fn.stop)
    (hcont : Contained M s0 lo hi) (n : Node) (hfree : n.JumpFree) :
    Computes M s0 lo hi fuel (leaves n) (itemsOfNode n)
      (n.compute M.program (applied M fuel s0.depth s0.frame.fn.name)) := by
  induction n using Node.induction with
  | h n ih =>
    obtain ⟨hjump, hret, hparts⟩ := hfree
    rw [itemsOfNode_eq, Node.compute_eq]
    exact (Computes.gather fun c hc => ih c hc (hparts c hc)).own hstart hstop hcont hjump hret

end

lemma stand_self {s : State} {a : Nat} (h : s.frame.ip = a) :
    s.stand a { regs := s.frame.regs, world := s.world } s.operands s.trace = s := by
  obtain ⟨world, operands, ⟨fn, ip, regs, base⟩, waiting, depth, trace⟩ := s
  obtain rfl : ip = a := h
  rfl

/-- A run of the machine matches the result of evaluating a tree whose code ends at an address.
It gets there with the operands of the evaluation on top of the stack, or fails as the
evaluation does. Where a function that is called does not end within the steps given to it,
the run goes on at least as long. -/
def Matches (M : Setup) (s : State) (t : Node) (b fuel : Nat) :
    EStateM.Result Stop Env (List Operand) → Prop
  | .ok os ρ => os.length = leaves t ∧ ∃ tr, Reaches M s (s.stand b ρ (s.operands.append os) tr)
  | .error (.fault c) ρ => ∃ s1 s2, Reaches M s s1 ∧ step M s1 = .error c s2 ∧ s2.world = ρ.world
  | .error .exhausted _ => ∃ k s1, fuel ≤ k ∧ Steps M (fun _ => True) k s s1
  | .error _ _ => False

/-- The machine runs the code of every tree without jumps in a unit as the tree is evaluated,
from every state of the function it stands in, as long as no function that is called takes
operands from below its frame. -/
theorem matches_of_occurs {u : CodeUnit} {M : Setup} {f : Function} {r : Range} {t : Node} {a : Nat}
    {s : State} (hp : Program.ofUnit u = .ok M.program) (hf : f ∈ u.functions)
    (hr : M.program.entry f.name = some r) (ht : Occurs (.stmt f.body) r.start t a)
    (hfree : t.JumpFree) (hfn : s.frame.fn = r) (hip : s.frame.ip = a)
    (hcont : Contained M s a (a + extent (itemsOfNode t))) (fuel : Nat) :
    Matches M s t (a + extent (itemsOfNode t)) fuel
      (t.compute M.program (applied M fuel s.depth r.name)
        { regs := s.frame.regs, world := s.world }) := by
  obtain ⟨r', hr', hh⟩ := Program.holds_of_ofUnit hp hf
  obtain rfl : r = r' := Option.some.inj (hr.symm.trans hr')
  obtain ⟨hplaced, hle, hend⟩ := ht.placed hh.placed
  have hself := stand_self hip
  have hstop : a + extent (itemsOfNode t) ≤ r.stop := by
    rw [hh.stop]
    exact hend
  have hcomp : Computes M s a (a + extent (itemsOfNode t)) fuel (leaves t) (itemsOfNode t)
      (t.compute M.program (applied M fuel s.depth s.frame.fn.name)) :=
    computes_node (by rw [hfn]; exact hle) (by rw [hfn]; exact hstop) hcont t hfree
  have hrun := hcomp (a := a) (ρ := { regs := s.frame.regs, world := s.world })
    (S := s.operands) (t := s.trace) hplaced le_rfl le_rfl
    (by rw [hself]; exact Path.refl s)
  rw [hself, hfn] at hrun
  obtain ⟨k, s', hs', hm⟩ := hrun
  have hreach : Reaches M s s' := Path.reaches ⟨k, hs'⟩
  match hres : t.compute M.program (applied M fuel s.depth r.name)
    { regs := s.frame.regs, world := s.world } with
  | .ok os ρ =>
    rw [hres] at hm
    obtain ⟨hos, ⟨tr, rfl⟩, -⟩ := hm
    exact ⟨hos, tr, hreach⟩
  | .error (.fault c) ρ =>
    rw [hres] at hm
    obtain ⟨-, s'', hstep, hw⟩ := hm
    exact ⟨s', s'', hreach, hstep, hw⟩
  | .error .exhausted ρ =>
    rw [hres] at hm
    exact ⟨k, s', hm, hs'.imp fun _ _ => trivial⟩
  | .error (.goto l) ρ => rw [hres] at hm; exact hm.2.elim
  | .error (.leave vs) ρ => rw [hres] at hm; exact hm.elim
  | .error (.target c src) ρ => rw [hres] at hm; exact hm.elim
  | .error .unset ρ => rw [hres] at hm; exact hm.elim

lemma contained_of_started {u M s0 s} (hp : Program.ofUnit u = .ok M.program)
    (hconf : ∀ f ∈ u.functions, f.Confined (Callable u)) (h0 : Started M u s0) (hs : Reaches M s0 s)
    (lo hi : Nat) : Contained M s lo hi :=
  fun hs' _ => (proper_of_reaches hp hconf h0 (hs.trans hs'.reaches)).1.fed

lemma jumpFree_call (f : String) : Node.JumpFree (.expr (.call (.name f) [])) := by
  refine .intro (by simp [IsJump]) (by simp) fun c hc => ?_
  obtain rfl := mem_singleton.1 hc
  exact .intro (by simp [IsJump]) (by simp) (by simp [Node.children])

/-- What an evaluation gives, if it gives something. -/
def given {α : Type} : EStateM.Result Stop Env α → Option α
  | .ok x _ => some x
  | .error _ _ => none

/-- A unit in which a function adds five and the result of another. -/
def adding : CodeUnit where
  name := "adding"
  functions := [
    { name := "two", params := [], body := .seq [.ret [.const 2]] },
    { name := "seven", params := [],
      body := .seq [.ret [.binop .add (.const 5) (.call (.name "two") [])]] }]

lemma confined_adding : ∀ f ∈ adding.functions, f.Confined (Callable adding) := by
  have hcall : Callable adding "two" := .inl rfl
  intro f hf
  simp only [adding, mem_cons, not_mem_nil, or_false] at hf
  rcases hf with rfl | rfl
  · refine ⟨[.ret [.const 2]], [], [], rfl, ?_, .inl ⟨rfl, rfl⟩⟩
    simp [Stmt.ConfinedAll, Stmt.Confined, Expr.ConfinedAll, Expr.Confined]
  · refine ⟨[.ret [.binop .add (.const 5) (.call (.name "two") [])]], [], [], rfl, ?_,
      .inl ⟨rfl, rfl⟩⟩
    simp [Stmt.ConfinedAll, Stmt.Confined, Expr.ConfinedAll, Expr.Confined, hcall, BinOp.defined]

/-- The sum of five and two is on the stack after its code has run. -/
theorem matches_adding :
    ∃ m s ρ tr, ofUnit? (some adding) {} = .ok m ∧ m.start "seven" 3 [] = .ok s ∧
      Reaches m.setup s (s.stand 7 ρ (s.operands.append [.value 7]) tr) := by
  let sum : Node := .expr (.binop .add (.const 5) (.call (.name "two") []))
  have hrun : ((ofUnit? (some adding) {}).toOption.bind fun m =>
    (m.start "seven" 3 []).toOption.map fun s =>
      decide (m.setup.program.entry "seven" = some ⟨"seven", 3, 9⟩ ∧
        s.frame.fn = ⟨"seven", 3, 9⟩ ∧ s.frame.ip = 3 ∧
        given (sum.compute m.setup.program (applied m.setup 20 s.depth "seven")
          { regs := s.frame.regs, world := s.world }) = some [.value 7])) = some true := by
    decide +kernel
  obtain ⟨m, hm, hrun⟩ := Except.bind_eq_some.1 hrun
  obtain ⟨s, hs, hrun⟩ := Except.map_eq_some.1 hrun
  obtain ⟨hentry, hfn, hip, hgiven⟩ := of_decide_eq_true hrun
  have hp := program_of_ofUnit? hm
  have hstart := hs
  have hmem : adding.functions[1] ∈ adding.functions := getElem_mem _
  have hfree : sum.JumpFree := by
    refine .intro (by simp [sum, IsJump]) (by simp [sum]) fun c hc => ?_
    simp only [sum, Node.children, mem_cons, not_mem_nil, or_false] at hc
    rcases hc with rfl | rfl
    · exact .intro (by simp [IsJump]) (by simp) (by simp [Node.children])
    · exact jumpFree_call "two"
  have h0 : Started m.setup adding s := started_of_entry hm hmem hentry hstart
  have hmatch := matches_of_occurs hp hmem hentry
    (.part [] [] rfl (.part [] [] rfl (.self sum 3))) hfree hfn hip
    (contained_of_started hp confined_adding h0 (Path.refl s) _ _) 20
  cases hres : sum.compute m.setup.program (applied m.setup 20 s.depth "seven")
      { regs := s.frame.regs, world := s.world } with
  | error e ρ => rw [hres] at hgiven; cases hgiven
  | ok os ρ =>
    rw [hres] at hgiven hmatch
    obtain rfl : os = [.value 7] := Option.some.inj hgiven
    obtain ⟨-, tr, hreach⟩ := hmatch
    exact ⟨m, s, ρ, tr, hm, hstart, hreach⟩

/-- The state after a number of steps that do not end the run. -/
def ahead (M : Setup) : Nat → State → Option State
  | 0, s => some s
  | n + 1, s =>
    match step M s with
    | .ok .running s' => ahead M n s'
    | _ => none

lemma reaches_of_ahead {M : Setup} {n : Nat} {s s' : State} (h : ahead M n s = some s') :
    Reaches M s s' := by
  induction n generalizing s with
  | zero => cases h; exact Path.refl _
  | succ n ih =>
    rw [ahead] at h
    split at h
    · next hs => exact (Path.single trivial hs).trans (ih h)
    · cases h

/-- A unit in which a function jumps into the middle of an expression and so adds an operand of
its caller. -/
def stealing : CodeUnit where
  name := "stealing"
  functions := [
    { name := "steal", params := [],
      body := .seq [.jump (.name "L"), .exp (.binop .add
        (.binop .add (.const 1) (.eseq (.label "L") (.const 2)))
        (.eseq (.ret []) (.const 0)))] },
    { name := "main", params := [],
      body := .ret [.binop .add (.const 5) (.call (.name "steal") [])] }]

def beforeSteal : State where
  world := default
  operands := { items := [.value 5], height := 1 }
  frame := { fn := ⟨"main", 12, 17⟩, ip := 13, base := 0 }
  depth := 1

/-- A called function can change the operands of its caller: the call of `steal` leaves its
result, but the five below has become a seven. -/
theorem takes_from_caller :
    ∃ m s, ofUnit? (some stealing) {} = .ok m ∧
      m.setup.program.entry "main" = some beforeSteal.frame.fn ∧
      Occurs (.stmt (.ret [.binop .add (.const 5) (.call (.name "steal") [])])) 12
        (.expr (.call (.name "steal") [])) 13 ∧
      Node.JumpFree (.expr (.call (.name "steal") [])) ∧
      extent (itemsOfNode (.expr (.call (.name "steal") []))) = 2 ∧
      Reaches m.setup beforeSteal s ∧ s.waiting = [] ∧ s.frame.fn = beforeSteal.frame.fn ∧
      s.frame.ip = 15 ∧ s.operands.items = [.value 0, .value 7] := by
  have hrun : ((ofUnit? (some stealing) {}).toOption.bind fun m =>
    (ahead m.setup 8 beforeSteal).map fun s => decide
      (m.setup.program.entry "main" = some beforeSteal.frame.fn ∧ s.waiting.length = 0 ∧
        s.frame.fn = beforeSteal.frame.fn ∧ s.frame.ip = 15 ∧
        s.operands.items = [.value 0, .value 7])) = some true := by decide +kernel
  obtain ⟨m, hm, hrun⟩ := Except.bind_eq_some.1 hrun
  obtain ⟨s, hs, hrun⟩ := Option.map_eq_some_iff.1 hrun
  obtain ⟨hentry, hwait, hfn, hip, hops⟩ := of_decide_eq_true hrun
  exact ⟨m, s, hm, hentry,
    .part [] [] rfl (.part [.expr (.const 5)] [] rfl (.self _ _)), jumpFree_call "steal", rfl,
    reaches_of_ahead hs, length_eq_zero_iff.1 hwait, hfn, hip, hops⟩

end TreeMachine.Machine
