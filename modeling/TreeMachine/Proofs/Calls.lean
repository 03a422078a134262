import TreeMachine.Proofs.Nodes

/-!
# Runs of calls

A call in the evaluation is a call of a function on the world. In the machine it enters a
frame, runs, and leaves the frame. `Calls` says that the machine follows the calls of an
evaluation, whatever code the called functions have; `Calls.lands` then gives the run of a
call node, from its arguments on the stack to the delivery of its results.

The machine may follow an evaluation more or less closely. An `Agreement` says how.
-/

namespace TreeMachine.Machine

open Structured
open Linear

/-- How closely runs follow evaluations: related worlds and faults, on the left those of the
evaluation, and what holds of states where an evaluation is given up. Whether a store that
is given up for its target is given up by the run as well can be left open. -/
structure Agreement where
  world : World → World → Prop
  fault : Fault → Fault → Prop
  checked : Expr → Prop
  target : Expr → State → Prop
  unset : State → Prop

section

variable (M : Setup) (Q : State → Prop) (A : Agreement)

def Fails (c : Fault) (w : World) (s : State) : Prop :=
  Q s ∧ ∃ c' s', step M s = .error c' s' ∧ A.fault c c' ∧ A.world w s'.world

/-- What is asked of the states in which a call is abandoned. No jump leaves a function. -/
def outside : Exits World where
  go _ _ _ := False
  home _ _ _ := False
  fault c w s := Fails M Q A c w s
  target c src w s := A.checked src → Fails M Q A c w s ∧ A.target src s
  unset s := A.unset s

/-- The next step leaves the frame that was entered in the state `s0`, with results, and the
operands from before the call are still there. -/
def Returns (s0 : State) (results : List Int32) (w : World) (s : State) : Prop :=
  Q s ∧ ∃ s', step M s = leave M.program results s' ∧ A.world w s'.world ∧
    s'.waiting = s0.waiting ∧ s'.depth = s0.depth ∧ s'.frame.base = s0.operands.height ∧
    s0.operands.items <:+ s'.operands.items

/-- The machine follows the calls that the function `caller` makes at a depth. -/
structure Calls (n : Nat) (ok : String → Prop) (caller : String) (depth : Nat)
    (call : String → List Int32 → EStateM Stop World (List Int32)) : Prop where
  routine : ∀ {f w w'} (vs), ok f → M.program.labels[f]? = none → A.world w w' →
    ∃ r, Routine.ofName? f = some r ∧
      match r.run caller vs w' with
      | .ok results w1' => ∃ w1, call f vs w = .ok results w1 ∧ A.world w1 w1'
      | .error c' w1' =>
        ∃ c w1, call f vs w = .error (.fault c) w1 ∧ A.fault c c' ∧ A.world w1 w1'
  entry : ∀ {f addr}, ok f → M.program.labels[f]? = some addr →
    ∃ fn, callee M.program f addr = .ok fn
  deep : ∀ {f addr} (vs w), ok f → M.program.labels[f]? = some addr → M.maxDepth ≤ depth →
    A.fault (.callDepthExceeded depth) (.callDepthExceeded depth) ∧
      call f vs w = .error (.fault (.callDepthExceeded depth)) w
  enter : ∀ {f vs w addr fn s s1}, ok f → M.program.labels[f]? = some addr →
    callee M.program f addr = .ok fn → depth < M.maxDepth → s.depth = depth →
    A.world w s.world → Q s1 → step M s1 = .ok .running (entered M s fn addr vs) →
    Lands M Q n (outside M Q A) (Returns M Q A (entered M s fn addr vs)) s1 (call f vs w)

end

variable {M : Setup} {Q : State → Prop} {A : Agreement} {n : Nat} {ok : String → Prop}
  {call : String → List Int32 → EStateM Stop World (List Int32)}

/-- The run of a call node: it gets to a step that delivers the results of the call. -/
lemma Calls.lands {s0 : State} {os : List Operand} {ρ ρ' : Env} {S : Operands}
    (hcalls : Calls M Q A n ok s0.frame.fn.name s0.depth call) (hf : ok f)
    (hlo : s0.frame.fn.start ≤ a) (hhi : a < s0.frame.fn.stop) (hc : M.program.code[a]? = some node)
    (hn : IsCall node f os.length) (h : Eval.takeAll care os ρ = .ok vs ρ')
    (hw : A.world w ρ'.world)
    (hq : Q (s0.stand a ρ ((S.push (.symbol f M.program.labels[f]?)).append os) t)) :
    Lands M Q n (outside M Q A) (fun results w1 s => Q s ∧ ∃ w1' t', A.world w1 w1' ∧
        step M s = returned node results (s0.stand a { ρ' with world := w1' } S t'))
      (s0.stand a ρ ((S.push (.symbol f M.program.labels[f]?)).append os) t) (call f vs w) := by
  cases hl : M.program.labels[f]? with
  | none =>
    obtain ⟨r, hr, hrun⟩ := hcalls.routine vs hf hl hw
    have hstep := step_call_routine (S := S) (t := t) hlo hhi hc hn h hl hr
    rw [hl] at hstep hq
    cases hres : r.run s0.frame.fn.name vs ρ'.world with
    | ok results w1' =>
      rw [hres] at hrun hstep
      obtain ⟨w1, hcall, hw1⟩ := hrun
      rw [hcall]
      exact .done ⟨hq, w1', t, hw1, hstep⟩
    | error c' w1' =>
      rw [hres] at hrun hstep
      obtain ⟨c, w1, hcall, hcc, hw1⟩ := hrun
      rw [hcall]
      exact .now ⟨hq, c', _, hstep, hcc, hw1⟩
  | some addr =>
    obtain ⟨fn, hfn⟩ := hcalls.entry hf hl
    have hstep := step_call_function (S := S) (t := t) hlo hhi hc hn h hl hfn
    rw [hl] at hstep hq
    by_cases hd : M.maxDepth ≤ s0.depth
    · rw [if_pos hd] at hstep
      obtain ⟨hcc, hcall⟩ := hcalls.deep vs w hf hl hd
      rw [hcall]
      exact .now ⟨hq, _, _, hstep, hcc, hw⟩
    · rw [if_neg hd] at hstep
      refine (hcalls.enter (s := s0.stand a ρ' S t) hf hl hfn (by omega) rfl hw hq hstep).imp
        (.refl _) fun results w1 s' _ hret => ?_
      obtain ⟨hq', s'', hs, hw', hwait, hdep, hbase, hops⟩ := hret
      refine ⟨hq', s''.world, s''.trace, hw', ?_⟩
      rw [hs, leave_to_caller hwait hdep hbase hops rfl hc]
      rfl

lemma Lands.callBy (h : Lands M Q n (outside M Q A) fin s (call f vs ρ.world))
    (hfault : ∀ {c w s}, Fails M Q A c w s → X.fault c { ρ with world := w } s)
    (htarget : ∀ {c src w s}, (A.checked src → Fails M Q A c w s ∧ A.target src s) →
      X.target c src { ρ with world := w } s) (hunset : ∀ {s}, A.unset s → X.unset s)
    (hfin : ∀ {results w s}, fin results w s →
      fin' results { regs := ρ.regs.setAll retReg 1 results, world := w } s) :
    Lands M Q n X fin' s (Eval.callBy call f vs ρ) := by
  obtain ⟨k, t, ht, hm⟩ := h
  refine ⟨k, t, ht, ?_⟩
  unfold Eval.callBy
  match hr : call f vs ρ.world with
  | .ok results w => rw [hr] at hm; exact hfin hm
  | .error (.fault c) w => rw [hr] at hm; exact hfault hm
  | .error (.target c src) w => rw [hr] at hm; exact htarget hm
  | .error .unset w => rw [hr] at hm; exact hunset hm
  | .error .exhausted w => rw [hr] at hm; exact hm
  | .error (.goto l) w => rw [hr] at hm; exact hm.2.elim
  | .error (.leave vs) w => rw [hr] at hm; exact hm.elim

end TreeMachine.Machine
