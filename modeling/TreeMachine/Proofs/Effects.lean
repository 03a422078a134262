import TreeMachine.Proofs.Expected
import TreeMachine.Proofs.Steps
import TreeMachine.Proofs.Worlds

/-!
# What a node may change

Nodes act on the world, on the operands and on the registers of the running frame, and on
nothing else: where the frame stands, which frames wait and how deep the calls are is up to the
step around them. A relation between states that allows those three kinds of change, and that
can be chained, holds between the states before and after every node, also when the node fails
or finds too few operands. Of the world a node changes the heap and the source of fillers; the
rest is up to the library routines it calls.
-/

namespace TreeMachine

/-! ### Faults of the parts -/

lemma Operands.shallow_of_pop {s : Operands} {c : Fault} (h : s.pop operation = .error c) :
    c.Shallow := by
  unfold Operands.pop at h
  split at h
  · cases h
    simp [Fault.Shallow]
  · cases h

lemma Operands.shallow_of_popMany {s : Operands} {c : Fault}
    (h : s.popMany operation n = .error c) : c.Shallow := by
  unfold Operands.popMany at h
  split at h
  · cases h
    simp [Fault.Shallow]
  · cases h

lemma Routine.shallow_run (caller : String) (args : List Int32) (r : Routine) :
    (r.run caller args).Faults Fault.Shallow := by
  intro w c w' h
  cases args with
  | cons v vs => exact (plain_run caller v vs r _ _ _ h).shallow
  | nil =>
    rcases faults_run_nil caller r _ _ _ h with hp | ⟨operation, got, rfl⟩
    · exact hp.shallow
    · simp [Fault.Shallow]

lemma Word.shallow_of_binop (h : Word.binop op l r = .error c) : c.Shallow := by
  cases op with
  | undefined tag =>
    cases h
    simp [Fault.Shallow]
  | div | mod =>
    simp only [Word.binop] at h
    split at h
    · cases h
      simp [Fault.Shallow]
    · cases h
  | _ => cases h

namespace Machine

open Linear
open Structured

lemma badInstruction_of_callee (h : callee p name addr = .error c) : c = .badInstruction addr := by
  have hlocated : callee.located p addr = .error c → c = .badInstruction addr := by
    intro hl
    unfold callee.located at hl
    split at hl <;> cases hl
    rfl
  unfold callee at h
  split at h
  · split at h
    · cases h
    · exact hlocated h
  · exact hlocated h

/-! ### Relations kept by nodes -/

/-- What a call node calls its operation, and how many arguments it takes. -/
def calls? : Node → Option (String × Nat)
  | .expr (.call _ args) => some ("call", args.length)
  | .stmt (.call _ _ args) => some ("callstmt", args.length)
  | _ => none

lemma exec_of_calls? (h : calls? n = some (operation, argc)) (p : Program) :
    exec p n = call p n operation argc := by
  cases n with
  | expr x =>
    cases x with
    | call x args => cases h; rfl
    | _ => cases h
  | stmt st =>
    cases st with
    | call returns x args => cases h; rfl
    | _ => cases h

/-- A relation between states that allows the world to change as `W` says, the operands to change
and registers to be set, with a property of faults that only the depth of calls can break. The
heap may grow, and fillers may be drawn. -/
structure Allows (W : World → World → Prop) (R : State → State → Prop) (P : Fault → Prop) :
    Prop where
  refl : ∀ s, R s s
  trans : ∀ {s1 s2 s3}, R s1 s2 → R s2 s3 → R s1 s3
  heap : ∀ (w : World) (h : Heap), w.heap.Grows h → W w { w with heap := h }
  filler : ∀ (w : World) (f : Pcg), W w (w.refill f)
  world : ∀ (s : State) (w : World), W s.world w → R s { s with world := w }
  operands : ∀ (s : State) (ops : Operands), R s { s with operands := ops }
  registers : ∀ (s : State) (regs : Registers), R s { s with frame := { s.frame with regs } }
  fault : ∀ {c : Fault}, c.Shallow → P c

/-- A result in a state that is related to one before, with a fault of some kind if it is one. -/
def Ends {α : Type} (R : State → State → Prop) (P : Fault → Prop) (s : State) :
    EStateM.Result Fault State α → Prop
  | .ok _ s' => R s s'
  | .error c s' => R s s' ∧ P c

/-- From every state an action leads to a related one, also where it fails. -/
def Abides {α : Type} (R : State → State → Prop) (P : Fault → Prop) (m : Exec α) : Prop :=
  ∀ s : State, Ends R P s (m s)

namespace Abides

variable {α : Type} {W : World → World → Prop} {R : State → State → Prop} {P : Fault → Prop}
  (hR : Allows W R P)

include hR

lemma pure (x : α) : Abides R P (Pure.pure x : Exec α) := fun s => hR.refl s

lemma throw (h : c.Shallow) : Abides R P (throw c : Exec α) :=
  fun s => ⟨hR.refl s, hR.fault h⟩

lemma get : Abides R P (get : Exec State) := fun s => hR.refl s

lemma bind (hm : Abides R P m) (hf : ∀ x, Abides R P (f x)) : Abides R P (m >>= f) := by
  intro s
  have h := hm s
  cases hr : m s with
  | ok x s1 =>
    rw [hr] at h
    rw [bind_ok hr]
    have h' := hf x s1
    cases hr' : f x s1 with
    | ok y s2 =>
      rw [hr'] at h'
      exact hR.trans h h'
    | error c s2 =>
      rw [hr'] at h'
      exact ⟨hR.trans h h'.1, h'.2⟩
  | error c s1 =>
    rw [hr] at h
    rw [bind_error hr]
    exact h

lemma onWorld (ha : ∀ w : World, W w (endOf (a w))) (hf : a.Faults Fault.Shallow) :
    Abides R P (onWorld a) := by
  rintro ⟨world, operands, frame, waiting, depth, trace⟩
  have h := hR.world ⟨world, operands, frame, waiting, depth, trace⟩ _ (ha world)
  simp only [Machine.onWorld]
  cases hr : a world with
  | ok x w =>
    rw [hr] at h
    exact h
  | error c w =>
    rw [hr] at h
    exact ⟨h, hR.fault (hf _ _ _ hr)⟩

lemma push (o : Operand) : Abides R P (push o) := fun s => hR.operands s (s.operands.push o)

lemma pop (operation : String) : Abides R P (pop operation) := by
  intro s
  unfold Machine.pop
  cases hr : s.operands.pop operation with
  | ok r => exact hR.operands s r.2
  | error c => exact ⟨hR.refl s, hR.fault (Operands.shallow_of_pop hr)⟩

lemma popMany (operation : String) (n : Nat) : Abides R P (popMany operation n) := by
  intro s
  unfold Machine.popMany
  cases hr : s.operands.popMany operation n with
  | ok r => exact hR.operands s r.2
  | error c => exact ⟨hR.refl s, hR.fault (Operands.shallow_of_popMany hr)⟩

lemma setRegister (name : String) (v : Int32) : Abides R P (setRegister name v) :=
  fun s => hR.registers s (s.frame.regs.set name v)

lemma drawFiller : Abides R P (Machine.onWorld World.drawFiller) := by
  have hkeep : ∀ (w : World) (d : Int32 × Pcg),
      World.drawFiller w = .ok d.1 (w.refill d.2) → W w (endOf (World.drawFiller w)) := by
    intro w d hdraw
    rw [hdraw]
    exact hR.filler w d.2
  refine onWorld hR (fun w => hkeep w _ (World.drawFiller_eq w)) fun w c w' h => ?_
  rw [World.drawFiller_eq] at h
  cases h

lemma fill (name : String) : Abides R P (fill name) := by
  refine bind hR (get hR) fun s => ?_
  cases s.frame.regs.get? name with
  | some v => exact pure hR v
  | none =>
    exact bind hR (drawFiller hR) fun v => bind hR (setRegister hR name v) fun _ => pure hR v

lemma valueOf (o : Operand) : Abides R P (valueOf o) := by
  rcases o with v | ⟨_, v⟩ | ⟨name, _ | v⟩ | ⟨f, _ | addr⟩
  · exact pure hR v
  · exact pure hR v
  · exact fill hR name
  · exact pure hR v
  · exact pure hR _
  · exact pure hR _

lemma valuesOf (os : List Operand) : Abides R P (valuesOf os) := by
  induction os with
  | nil => exact pure hR []
  | cons o os ih => exact bind hR (valueOf hR o) fun _ => bind hR ih fun _ => pure hR _

lemma popValue (operation : String) : Abides R P (popValue operation) :=
  bind hR (pop hR operation) (valueOf hR)

lemma popValues (operation : String) (n : Nat) : Abides R P (popValues operation n) :=
  bind hR (popMany hR operation n) (valuesOf hR)

lemma deliver (n : Node) (results : List Int32) : Abides R P (deliver n results) := by
  refine bind hR (fun s => hR.registers s (s.frame.regs.setAll retReg 1 results)) fun _ => ?_
  cases n with
  | expr x => exact push hR _
  | stmt st =>
    cases st with
    | call returns target args =>
      by_cases h : 0 < returns ∧ (results.length : Int) < returns
      · simp only [h, and_self, if_true]
        exact throw hR (by simp [Fault.Shallow])
      · simp only [h, if_false]
        exact pure hR _
    | _ => exact push hR _

lemma dispatch (hroutine : ∀ caller args (r : Routine) w, W w (endOf (Routine.run caller args r w)))
    (p : Program) (target : Operand) (args : List Int32) :
    Abides R P (dispatch p target args) := by
  have henter : ∀ name addr, Abides R P (dispatch.enterAt p name addr) := by
    intro name addr
    unfold dispatch.enterAt
    cases hc : callee p name addr with
    | ok r => exact pure hR _
    | error c =>
      obtain rfl := badInstruction_of_callee hc
      exact throw hR (by simp [Fault.Shallow])
  rcases target with v | ⟨_, _⟩ | ⟨_, _⟩ | ⟨f, _ | addr⟩
  · exact henter _ _
  · exact throw hR (by simp [Fault.Shallow])
  · exact throw hR (by simp [Fault.Shallow])
  · cases hr : Routine.ofName? f with
    | none =>
      simp only [Machine.dispatch, hr]
      exact throw hR (by simp [Fault.Shallow])
    | some r =>
      simp only [Machine.dispatch, hr]
      exact bind hR (get hR) fun s => bind hR (onWorld hR
        (hroutine s.frame.fn.name args r) (Routine.shallow_run _ args r)) fun _ => pure hR _
  · exact henter _ _

lemma call (hroutine : ∀ caller args (r : Routine) w, W w (endOf (Routine.run caller args r w)))
    (p : Program) (n : Node) (operation : String) (argc : Nat) :
    Abides R P (call p n operation argc) := by
  refine bind hR (popValues hR operation argc) fun args => bind hR (pop hR operation) fun target =>
    bind hR (dispatch hR hroutine p target args) fun r => ?_
  cases r with
  | inl results => exact bind hR (deliver hR n results) fun _ => pure hR _
  | inr r => exact pure hR _

lemma store (addr v : Int32) (w : World) : W w (endOf (World.store addr v w)) := by
  simp only [World.store, World.inspect, Bind.bind, EStateM.bind]
  cases w.heap.locate addr "store" with
  | error c => exact hR.heap w w.heap (.refl _)
  | ok i =>
    exact hR.heap w (w.heap.putWord i v)
      (.of_eq (Heap.used_putWord _ _ _) (Heap.limit_putWord _ _ _))

lemma assign (target : Operand) (v : Int32) : Abides R P (assign target v) := by
  cases target with
  | reg name _ => exact setRegister hR name v
  | mem addr _ =>
    exact onWorld hR (store hR addr v) fun _ _ _ h => (World.plain_store addr v _ _ _ h).shallow
  | value _ | symbol _ _ => exact throw hR (by simp [Fault.Shallow])

/-- Every node that is no call keeps to what the relation allows. -/
lemma exec_of_not_call (p : Program) (hn : calls? n = none) : Abides R P (exec p n) := by
  cases n with
  | expr x =>
    cases x with
    | const _ | name _ => exact bind hR (push hR _) fun _ => pure hR _
    | temp _ => exact bind hR (get hR) fun _ => bind hR (push hR _) fun _ => pure hR _
    | mem _ =>
      refine bind hR (popValue hR _) fun _ =>
        bind hR (onWorld hR (fun w => ?_) fun _ _ _ h => ?_) fun _ =>
          bind hR (push hR _) fun _ => pure hR _
      · rw [World.endOf_inspect]
        exact hR.heap w w.heap (.refl _)
      · exact (Act.Faults.inspect Heap.plain_of_load _ _ _ h).shallow
    | binop op _ _ =>
      refine bind hR (popValues hR _ 2) fun vs => ?_
      rcases vs with _ | ⟨l, _ | ⟨r, _ | ⟨v, vs⟩⟩⟩
      · exact pure hR _
      · exact pure hR _
      · cases h : Word.binop op l r with
        | ok v =>
          simp only [h]
          exact bind hR (push hR _) fun _ => pure hR _
        | error c =>
          simp only [h]
          exact throw hR (Word.shallow_of_binop h)
      · exact pure hR _
    | unop _ _ => exact bind hR (popValue hR _) fun _ => bind hR (push hR _) fun _ => pure hR _
    | call _ args => cases hn
    | eseq _ _ => exact pure hR _
  | stmt st =>
    cases st with
    | seq _ | label _ | skip => exact pure hR _
    | move _ _ =>
      exact bind hR (popValue hR _) fun v => bind hR (pop hR _) fun target =>
        bind hR (assign hR target v) fun _ => pure hR _
    | exp _ => exact bind hR (pop hR _) fun _ => pure hR _
    | jump _ =>
      refine bind hR (pop hR _) fun target => ?_
      rcases target with v | ⟨_, _⟩ | ⟨_, _⟩ | ⟨f, _ | addr⟩
      · exact bind hR (valueOf hR _) fun _ => pure hR _
      · exact bind hR (valueOf hR _) fun _ => pure hR _
      · exact bind hR (valueOf hR _) fun _ => pure hR _
      · exact throw hR (by simp [Fault.Shallow])
      · exact pure hR _
    | cjump _ _ _ => exact bind hR (popValue hR _) fun _ => pure hR _
    | ret _ => exact bind hR (popValues hR _ _) fun _ => pure hR _
    | call _ _ args => cases hn

/-- Every node keeps to what the relation allows, if the library routines do. -/
lemma exec (hroutine : ∀ caller args (r : Routine) w, W w (endOf (Routine.run caller args r w)))
    (p : Program) (n : Node) : Abides R P (exec p n) := by
  cases hn : calls? n with
  | none => exact exec_of_not_call hR p hn
  | some c =>
    rw [exec_of_calls? hn]
    exact call hR hroutine p n c.1 c.2

end Abides

/-! ### Steps -/

/-- The running frame is at a node of its function. -/
def State.Inside (s : State) : Prop :=
  (s.frame.fn.start : Int) ≤ s.frame.ip ∧ s.frame.ip < s.frame.fn.stop

instance (s : State) : Decidable s.Inside :=
  inferInstanceAs (Decidable (_ ∧ _))

/-- The running frame is neither at a node of its function nor at the function's end. -/
def State.Outside (s : State) : Prop :=
  s.frame.ip < s.frame.fn.start ∨ (s.frame.fn.stop : Int) < s.frame.ip

/-- The node that the running frame is at. -/
structure At (M : Setup) (s : State) (n : Node) : Prop where
  inside : s.Inside
  code : M.program.code[s.frame.ip.toNat]? = some n

def follow (M : Setup) (flow : Flow) : Exec Signal :=
  match flow with
  | .next => do
    modify fun s => { s with frame := { s.frame with ip := s.frame.ip + 1 } }
    return .running
  | .goto addr => goto M.program addr
  | .leave results => leave M.program results
  | .enter fn addr args => do
    enter M fn addr args
    return .running

section

variable {M : Setup} {s : State} {n : Node}

lemma step_of_stop (h : s.frame.ip = s.frame.fn.stop) : step M s = leave M.program [] s := by
  unfold step
  rw [bind_ok (get_eq _)]
  exact congrFun (if_pos h) s

lemma step_of_outside (hne : s.frame.ip ≠ s.frame.fn.stop) (h : s.Outside) :
    step M s = .error (.badInstruction s.frame.ip) s := by
  unfold step
  rw [bind_ok (get_eq _)]
  exact congrFun ((if_neg hne).trans (if_pos h)) s

lemma State.Inside.not_outside (h : s.Inside) : ¬s.Outside := by
  rintro (hlt | hlt)
  · exact absurd h.1 (Int.not_le.2 hlt)
  · exact absurd h.2 (Int.not_lt.2 (Int.le_of_lt hlt))

lemma At.step (h : At M s n) : step M s = (exec M.program n >>= follow M) s := by
  have hne : ¬s.frame.ip = s.frame.fn.stop := Int.ne_of_lt h.inside.2
  unfold Machine.step
  rw [bind_ok (get_eq _)]
  exact congrFun ((if_neg hne).trans ((if_neg h.inside.not_outside).trans (by rw [h.code]; rfl))) s

lemma At.unique (h : At M s n) (h' : At M s n') : n = n' :=
  Option.some.inj (h.code.symm.trans h'.code)

lemma State.inside_of_not (hne : s.frame.ip ≠ s.frame.fn.stop) (h : ¬s.Outside) : s.Inside := by
  unfold State.Outside at h
  unfold State.Inside
  omega

lemma step_of_missing (hin : s.Inside) (hn : M.program.code[s.frame.ip.toNat]? = none) :
    step M s = .error (.badInstruction s.frame.ip) s := by
  have hne : ¬s.frame.ip = s.frame.fn.stop := Int.ne_of_lt hin.2
  unfold step
  rw [bind_ok (get_eq _)]
  exact congrFun ((if_neg hne).trans ((if_neg hin.not_outside).trans (by rw [hn]; rfl))) s

lemma step_cases (M : Setup) (s : State) :
    step M s = leave M.program [] s ∨ (∃ c, step M s = .error c s) ∨ ∃ n, At M s n := by
  by_cases hstop : s.frame.ip = s.frame.fn.stop
  · exact .inl (step_of_stop hstop)
  by_cases hout : s.Outside
  · exact .inr (.inl ⟨_, step_of_outside hstop hout⟩)
  have hin := State.inside_of_not hstop hout
  cases hn : M.program.code[s.frame.ip.toNat]? with
  | none => exact .inr (.inl ⟨_, step_of_missing hin hn⟩)
  | some n => exact .inr (.inr ⟨n, hin, hn⟩)

end

/-! ### Relations kept by steps -/

/-- A relation between worlds that allows the heap to grow and fillers to be drawn. -/
structure Permits (W : World → World → Prop) : Prop where
  refl : ∀ w, W w w
  trans : ∀ {w1 w2 w3}, W w1 w2 → W w2 w3 → W w1 w3
  heap : ∀ (w : World) (h : Heap), w.heap.Grows h → W w { w with heap := h }
  filler : ∀ (w : World) (f : Pcg), W w (w.refill f)

def OnWorlds (W : World → World → Prop) (s s' : State) : Prop :=
  W s.world s'.world

namespace Permits

variable {W : World → World → Prop} (hW : Permits W)

include hW

lemma allows : Allows W (OnWorlds W) fun _ => True where
  refl _ := hW.refl _
  trans := hW.trans
  heap := hW.heap
  filler := hW.filler
  world _ _ h := h
  operands _ _ := hW.refl _
  registers _ _ := hW.refl _
  fault _ := trivial

lemma leave (p : Program) (results : List Int32) :
    Abides (OnWorlds W) (fun _ => True) (leave p results) := by
  intro s
  simp only [Machine.leave, bind, EStateM.bind, modify_eq, get_eq]
  cases s.waiting with
  | nil => exact hW.refl _
  | cons w waiting =>
    dsimp only
    cases p.code[w.ip.toNat]? with
    | none => exact hW.refl _
    | some n =>
      have hrest : Abides (OnWorlds W) (fun _ => True) (do
          deliver n results
          modify fun s => { s with frame := { s.frame with ip := s.frame.ip + 1 } }
          return Signal.running : Exec Signal) :=
        .bind hW.allows (.deliver hW.allows n results) fun _ _ => hW.refl _
      exact hrest { s with
        operands := s.operands.truncate s.frame.base, depth := s.depth - 1
        frame := w, waiting := waiting }

lemma enter (M : Setup) (fn : Range) (addr : Int) (args : List Int32) :
    Abides (OnWorlds W) (fun _ => True) (enter M fn addr args) := by
  intro s
  simp only [Machine.enter, bind, EStateM.bind, get_eq]
  by_cases h : M.maxDepth ≤ s.depth
  · simp only [h, if_true]
    exact ⟨hW.refl _, trivial⟩
  · simp only [h, if_false]
    exact hW.refl _

lemma goto (p : Program) (addr : Int) : Abides (OnWorlds W) (fun _ => True) (goto p addr) := by
  unfold Machine.goto
  by_cases h : addr = -1
  · simp only [h, if_true]
    exact hW.leave p []
  · simp only [h, if_false]
    exact fun _ => hW.refl _

lemma follow (M : Setup) (flow : Flow) : Abides (OnWorlds W) (fun _ => True) (follow M flow) := by
  cases flow with
  | next => exact fun _ => hW.refl _
  | goto addr => exact hW.goto _ _
  | leave results => exact hW.leave _ _
  | enter fn addr args => exact .bind hW.allows (hW.enter M fn addr args) fun _ _ => hW.refl _

lemma step (hnode : ∀ n, At M s n → Ends (OnWorlds W) (fun _ => True) s (exec M.program n s)) :
    Ends (OnWorlds W) (fun _ => True) s (step M s) := by
  rcases step_cases M s with hleave | ⟨c, hfail⟩ | ⟨n, hat⟩
  · rw [hleave]
    exact hW.leave M.program [] s
  · rw [hfail]
    exact ⟨hW.refl _, trivial⟩
  · have h := hnode n hat
    rw [hat.step]
    cases hr : exec M.program n s with
    | error c s1 =>
      rw [hr] at h
      rw [bind_error hr]
      exact h
    | ok flow s1 =>
      rw [hr] at h
      have h' := hW.follow M flow s1
      rw [bind_ok hr]
      cases hf : Machine.follow M flow s1 with
      | ok x s2 => rw [hf] at h'; exact hW.trans h h'
      | error c s2 => rw [hf] at h'; exact ⟨hW.trans h h'.1, trivial⟩

end Permits

end Machine

end TreeMachine
