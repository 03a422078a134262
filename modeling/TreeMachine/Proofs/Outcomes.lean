import TreeMachine.Proofs.Idle

/-!
# How calls end

A call from outside of a function of the program is a run from the state in which the function
starts, and what the machine makes of the run's end: the output is passed on, and an error gets a
context. The number of steps that the run may take decides only whether the call ends.
-/

namespace TreeMachine.Machine

def conclude (m : Machine) (name : String) (r : Except Fault (List Int32)) (s : State) :
    Except Error (List Int32) × Machine :=
  let s := if r.toBool then s else s.unwind
  let after := { m with
    world := s.world, operands := s.operands, depth := s.depth, trace := s.trace }
  let outcome := Error.wrap s!"call {name}" (r.mapError fun cause => .fault cause {})
  if m.depth = 0 then after.settle outcome else (outcome, after)

/-- Enough steps bring a call to this end, and it has no other. -/
def EndsWith (m : Machine) (name : String) (args : List Int32)
    (e : Except Error (List Int32) × Machine) : Prop :=
  (∃ fuel, m.callAll fuel name args = some e) ∧
    ∀ fuel e', m.callAll fuel name args = some e' → e' = e

/-- A call ends with an error of this code, and in no other way. -/
def FailsWith (m : Machine) (name : String) (args : List Int32) (code : String) : Prop :=
  ∃ e m', m.EndsWith name args (.error e, m') ∧ e.code = code

/-! ### Runs -/

section

variable {M : Setup} {s t t' : State} {r : Except Fault (List Int32)} {fuel : Nat}

lemma run_add (h : run M fuel s = some (r, t)) (k : Nat) : run M (fuel + k) s = some (r, t) := by
  induction fuel generalizing s with
  | zero => cases h
  | succ fuel ih =>
    rw [add_right_comm, run]
    rw [run] at h
    cases hs : step M s with
    | error c s1 =>
      rw [hs] at h
      exact h
    | ok sig s1 =>
      rw [hs] at h
      cases sig with
      | finished vs => exact h
      | running => exact ih h

lemma run_unique (h : run M fuel s = some e) (h' : run M fuel' s = some e') : e = e' := by
  have hadd := run_add h fuel'
  rw [add_comm, run_add h' fuel] at hadd
  exact (Option.some.inj hadd).symm

lemma eq_of_fails (h1 : Reaches M s s1) (h2 : Reaches M s s2) (hf1 : step M s1 = .error c1 t)
    (hf2 : step M s2 = .error c2 t') : s1 = s2 := by
  have hstop : ∀ {n : Nat} {s1 s2 t : State} {c : Fault}, step M s1 = .error c t →
      Steps M (fun _ => True) n s1 s2 → s1 = s2 := by
    intro n s1 s2 t c hf h
    cases h with
    | refl => rfl
    | head _ hs _ =>
      rw [hf] at hs
      cases hs
  obtain ⟨n1, h1⟩ := h1
  obtain ⟨n2, h2⟩ := h2
  rcases le_total n1 n2 with hle | hle
  · exact hstop hf1 (h1.of_steps h2 hle)
  · exact (hstop hf2 (h2.of_steps h1 hle)).symm

/-- The states that a run goes through within a number of steps. -/
def trail (M : Setup) : Nat → State → List State
  | 0, _ => []
  | fuel + 1, s =>
    s :: match step M s with
      | .ok .running s' => trail M fuel s'
      | _ => []

lemma mem_trail (h : run M fuel s = some e) (ht : Steps M Q n s t) : t ∈ trail M fuel s := by
  induction ht generalizing fuel with
  | refl s =>
    cases fuel with
    | zero => cases h
    | succ fuel => exact List.mem_cons_self
  | head _ hs _ ih =>
    cases fuel with
    | zero => cases h
    | succ fuel =>
      rw [run, hs] at h
      rw [trail, hs]
      exact List.mem_cons_of_mem _ (ih h)

lemma run_of_reaches (h : Reaches M s t) (hf : step M t = .error c t') :
    ∃ fuel, run M fuel s = some (.error c, t') := by
  obtain ⟨n, h⟩ := h
  exact ⟨n + 1, by rw [run_of_steps h, run, hf]⟩

end

/-! ### Calls -/

section

variable {m : Machine} {name : String} {args : List Int32}

lemma callAll_of_start (hl : m.setup.program.labels[name]? = some addr)
    (hs : m.start name addr args = .ok s) (fuel : Nat) :
    m.callAll fuel name args = (run m.setup fuel s).map fun r => m.conclude name r.1 r.2 := by
  unfold callAll invoke
  simp only [hl, hs, Option.map_map]
  congr 1
  funext r
  obtain ⟨r, s'⟩ := r
  cases r <;> rfl

lemma callAll_of_invoke (h : m.invoke fuel name args = some (r, after)) :
    m.callAll fuel name args = some (if m.depth = 0 then
        after.settle (Error.wrap s!"call {name}" (r.mapError fun cause => .fault cause {}))
      else (Error.wrap s!"call {name}" (r.mapError fun cause => .fault cause {}), after)) := by
  rw [callAll, h]
  rfl

lemma conclude_error (m : Machine) (name : String) (c : Fault) (s : State) :
    (m.conclude name (.error c) s).1 = .error (.within s!"call {name}" (.fault c {})) := by
  by_cases hm : m.depth = 0
  · simp only [conclude, hm, if_true, Error.wrap, Except.mapError, settle]
  · simp only [conclude, hm, if_false, Error.wrap, Except.mapError]

lemma endsWith_of_run (hl : m.setup.program.labels[name]? = some addr)
    (hs : m.start name addr args = .ok s) (h : run m.setup fuel s = some (r, s')) :
    m.EndsWith name args (m.conclude name r s') := by
  refine ⟨⟨fuel, by rw [callAll_of_start hl hs, h]; rfl⟩, fun fuel' e' he' => ?_⟩
  rw [callAll_of_start hl hs] at he'
  obtain ⟨e, hrun, rfl⟩ := Option.map_eq_some_iff.1 he'
  rw [run_unique hrun h]

lemma run_of_endsWith (hl : m.setup.program.labels[name]? = some addr)
    (hs : m.start name addr args = .ok s) (h : m.EndsWith name args e) :
    ∃ fuel r t, run m.setup fuel s = some (r, t) ∧ m.conclude name r t = e := by
  obtain ⟨⟨fuel, hcall⟩, -⟩ := h
  rw [callAll_of_start hl hs] at hcall
  obtain ⟨⟨r, t⟩, hrun, he⟩ := Option.map_eq_some_iff.1 hcall
  exact ⟨fuel, r, t, hrun, he⟩

lemma mem_trail_of_during (hl : m.setup.program.labels[name]? = some addr)
    (hs0 : m.start name addr args = .ok s0) (h : run m.setup fuel s0 = some e)
    (hs : m.During name args s) : s ∈ trail m.setup fuel s0 := by
  obtain ⟨addr', s0', hl', hs0', n, hn⟩ := hs
  obtain rfl : addr = addr' := Option.some.inj (hl.symm.trans hl')
  obtain rfl : s0 = s0' := Except.ok.inj (hs0.symm.trans hs0')
  exact mem_trail h hn

/-- A call that comes to a step that fails, fails with that fault. -/
lemma failsWith_of_during (h : m.During name args s) (hf : step m.setup s = .error c s') :
    m.FailsWith name args c.code := by
  obtain ⟨addr, s0, hl, hs0, hr⟩ := h
  obtain ⟨fuel, hrun⟩ := run_of_reaches hr hf
  have hends := endsWith_of_run hl hs0 hrun
  have hfst := conclude_error m name c s'
  generalize m.conclude name (.error c) s' = e at hends hfst
  obtain ⟨outcome, m'⟩ := e
  obtain rfl : outcome = _ := hfst
  exact ⟨_, m', hends, rfl⟩

lemma step_ne_error (h : m.EndsWith name args (.ok results, m1)) (hs : m.During name args s) :
    step m.setup s ≠ .error c s' := by
  intro hf
  obtain ⟨e, m', ⟨⟨fuel, hcall⟩, -⟩, -⟩ := failsWith_of_during hs hf
  cases h.2 fuel _ hcall

end

/-! ### Runs that can be computed -/

/-- A check of a call that ends within a number of steps: of all states on its way, and of its
outcome and the machine after it. -/
def checkCall (m : Machine) (fuel : Nat) (name : String) (args : List Int32)
    (way : List State → Bool) (ending : Except Error (List Int32) → Machine → Bool) : Bool :=
  (m.setup.program.labels[name]?.bind fun addr =>
    (m.start name addr args).toOption.bind fun s =>
    (run m.setup fuel s).map fun r =>
      way (trail m.setup fuel s) &&
        ending (m.conclude name r.1 r.2).1 (m.conclude name r.1 r.2).2) == some true

/-- The fault of the step from a state that fails. -/
def fault? (M : Setup) (s : State) : Option Fault :=
  match step M s with
  | .error c _ => some c
  | _ => none

lemma step_of_fault? (h : fault? M s = some c) : ∃ t, step M s = .error c t := by
  unfold fault? at h
  split at h
  next hstep =>
    cases h
    exact ⟨_, hstep⟩
  · cases h

lemma reaches_of_mem_trail (h : t ∈ trail M fuel s) : Reaches M s t := by
  induction fuel generalizing s with
  | zero => cases h
  | succ fuel ih =>
    rw [trail] at h
    rcases List.mem_cons.1 h with rfl | h
    · exact Path.refl _
    · split at h
      next s' hstep => exact Path.head trivial hstep (ih h)
      · cases h

lemma exists_of_checkCall {m : Machine} (h : m.checkCall fuel name args way ending = true) :
    ∃ r m1 states, m.EndsWith name args (r, m1) ∧ ending r m1 = true ∧ way states = true ∧
      ∀ s, m.During name args s ↔ s ∈ states := by
  obtain ⟨addr, hl, h⟩ := Option.bind_eq_some_iff.1 (eq_of_beq h)
  obtain ⟨s0, hs0, h⟩ := Except.bind_eq_some.1 h
  obtain ⟨⟨r, t⟩, hrun, h⟩ := Option.map_eq_some_iff.1 h
  obtain ⟨hway, hending⟩ := Bool.and_eq_true_iff.1 h
  exact ⟨_, _, _, endsWith_of_run hl hs0 hrun, hending, hway, fun s =>
    ⟨mem_trail_of_during hl hs0 hrun, fun hs => ⟨addr, s0, hl, hs0, reaches_of_mem_trail hs⟩⟩⟩

def errorCode? : Except Error (List Int32) → Option String
  | .ok _ => none
  | .error e => some e.code

lemma failsWith_of_checkCall {m : Machine} (h : m.checkCall fuel name args (fun _ => true)
      (fun r _ => decide (errorCode? r = some code)) = true) : m.FailsWith name args code := by
  obtain ⟨r, m1, -, hends, hr, -, -⟩ := exists_of_checkCall h
  cases r with
  | ok results => cases of_decide_eq_true hr
  | error e => exact ⟨e, m1, hends, Option.some.inj (of_decide_eq_true hr)⟩

end TreeMachine.Machine
