import TreeMachine.Proofs.Adequacy
import TreeMachine.Proofs.Outcomes

/-!
# Calls from outside

The machine follows the evaluation of a function that is called from outside the program. So the
evaluation tells how the run ends, or that it takes more steps than the budget says.
-/

namespace TreeMachine.Machine

open Structured
open Linear

/-! ### Ends of runs -/

/-- What the evaluation of a call says about the end of the run from a state. -/
def Settles (M : Setup) (A : Agreement) (n : Nat) (s : State) :
    EStateM.Result Stop World (List Int32) → Prop
  | .ok vs w => ∃ fuel t, run M fuel s = some (.ok vs, t) ∧ A.world w t.world
  | .error (.fault c) w =>
    ∃ fuel c' t, run M fuel s = some (.error c', t) ∧ A.fault c c' ∧ A.world w t.world
  | .error (.target c src) w => A.checked src →
    ∃ s' c' t, Reaches M s s' ∧ A.target src s' ∧ step M s' = .error c' t ∧ A.fault c c' ∧
      A.world w t.world
  | .error .unset _ => ∃ s', Reaches M s s' ∧ A.unset s'
  | .error .exhausted _ => ∀ fuel ≤ n, run M fuel s = none
  | .error _ _ => False

section

variable {M : Setup} {Q : State → Prop} {A : Agreement} {n : Nat} {s : State}
  {r : EStateM.Result Stop World (List Int32)}

lemma Lands.settles (h : Lands M Q n (outside M Q A) (Returns M Q A s) s r)
    (hwait : s.waiting = []) : Settles M A n s r := by
  obtain ⟨k, s', hsteps, hm⟩ := h
  have hreach : Reaches M s s' := Path.reaches ⟨k, hsteps⟩
  cases r with
  | ok vs w =>
    obtain ⟨-, t, hstep, hw, hwait', -⟩ := hm
    rw [leave_of_nil (hwait'.trans hwait)] at hstep
    refine ⟨k + 1, { t with operands := t.operands.truncate t.frame.base, depth := t.depth - 1 },
      ?_, hw⟩
    rw [run_of_steps hsteps, run, hstep]
  | error e w =>
    cases e with
    | fault c =>
      obtain ⟨-, c', t, hstep, hc, hw⟩ := hm
      refine ⟨k + 1, c', t, ?_, hc, hw⟩
      rw [run_of_steps hsteps, run, hstep]
    | target c src =>
      intro hchecked
      obtain ⟨⟨-, c', t, hstep, hc, hw⟩, htarget⟩ := hm hchecked
      exact ⟨s', c', t, hreach, htarget, hstep, hc, hw⟩
    | unset => exact ⟨s', hreach, hm⟩
    | exhausted => exact fun fuel hle => run_eq_none hsteps (le_trans hle hm)
    | goto l => exact hm.2.elim
    | leave vs => exact hm.elim

end

/-! ### Functions -/

/-- No jump leaves a function of a confined unit. -/
lemma run_ne_goto (hp : Program.ofUnit u = .ok p)
    (hconf : ∀ f ∈ u.functions, f.Confined (Callable u)) (hstrict : mode.lax = false)
    (hf : f ∈ u.functions) (maxDepth budget depth : Nat) (args : List Int32) (w w' : World)
    (l : String) : f.run { mode, budget, call := u.call mode maxDepth budget depth f.name } args w ≠
      .error (.goto l) w' := by
  intro hrun
  obtain ⟨r, -, hh⟩ := Program.holds_of_ofUnit hp hf
  -- the machine follows the function from any state in which it is entered
  have hentry : Entry { program := p, maxDepth, traced := false } (fun _ => True)
      { mode, budget, call := u.call mode maxDepth budget depth f.name } (Callable u) r
      { world := w, operands := .empty, frame := newFrame r r.start args 0, depth,
        trace := [] } := by
    refine ⟨hstrict, fun _ => trivial, rfl, rfl, ?_⟩
    rw [hh.name]
    exact calls_of_unit hp hconf hstrict (fun _ => trivial) budget depth f.name
  have hlands := follows_function hentry (hconf f hf) hh rfl
  rw [hrun] at hlands
  obtain ⟨_, _, -, hmeets⟩ := hlands
  exact hmeets.2

/-- The state in which a function starts to run for a caller outside the program. -/
def opening (m : Machine) (r : Range) (args : List Int32) : State where
  world := m.world
  operands := m.operands
  frame := newFrame r r.start args m.operands.height
  depth := m.depth + 1
  trace := if m.setup.traced then ⟨r.name, args, m.depth + 1⟩ :: m.trace else m.trace

lemma start_of_holds {u : CodeUnit} {m : Machine} {f : Function}
    (args : List Int32) (hp : Program.ofUnit u = .ok m.setup.program) (hf : f ∈ u.functions)
    (hdepth : m.depth < m.setup.maxDepth) :
    ∃ r, Program.Holds m.setup.program f r ∧
      m.start f.name r.start args = .ok (m.opening r args) := by
  obtain ⟨r, hr, hh⟩ := Program.holds_of_ofUnit hp hf
  have hcallee : callee m.setup.program f.name r.start = .ok r := by simp [callee, hr]
  have hnd : ¬m.setup.maxDepth ≤ m.depth := by omega
  refine ⟨r, hh, ?_⟩
  unfold start
  rw [hcallee]
  show (if m.setup.maxDepth ≤ m.depth then _ else _ : Except Fault State) = _
  rw [if_neg hnd]
  rfl

/-- A call of a function from outside, with a budget. -/
def outerCall (u : CodeUnit) (care : Care) (maxDepth n : Nat) (f : Function)
    (args : List Int32) : EStateM Stop World (List Int32) :=
  f.run { mode := { care, lax := false }, budget := n
          call := u.call { care, lax := false } maxDepth n 1 f.name } args

/-- The machine follows a call from outside. -/
lemma settles_of_unit {u : CodeUnit} {m : Machine} (hp : Program.ofUnit u = .ok m.setup.program)
    (hconf : ∀ f ∈ u.functions, f.Confined (Callable u)) (hidle : m.depth = 0) {f : Function}
    (hf : f ∈ u.functions) (hh : Program.Holds m.setup.program f r) (n : Nat) :
    Settles m.setup (faithful m.setup.program care) n (m.opening r args)
      (outerCall u care m.setup.maxDepth n f args m.world) := by
  have hdepth : (m.opening r args).depth = 1 := congrArg (· + 1) hidle
  have hentry : Entry m.setup (fun _ => True)
      { mode := { care, lax := false }, budget := n
        call := u.call { care, lax := false } m.setup.maxDepth n 1 f.name } (Callable u) r
      (m.opening r args) := by
    refine ⟨rfl, fun _ => trivial, rfl, rfl, ?_⟩
    rw [hh.name, hdepth]
    exact calls_of_unit hp hconf rfl (fun _ => trivial) n 1 f.name
  exact (follows_function hentry (hconf f hf) hh rfl).settles rfl

end TreeMachine.Machine
