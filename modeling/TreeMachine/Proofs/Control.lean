import TreeMachine.Proofs.Outcomes

/-!
# Where control goes

Nothing is assumed of the code here: it may jump to any number it computes. Even so a frame runs
nodes of its own function only. A jump to an address outside the function makes the run fail, with
one exception: the number minus one, which stands for a frame that has returned. A frame that jumps
there is left without results.
-/

namespace TreeMachine.Linear

open Structured

lemma Placed.exists_node (h : Placed p a is) (hab : a ≤ b) (hb : b < a + extent is) :
    ∃ n ∈ nodes is, p.code[b]? = some n := by
  induction is generalizing a with
  | nil => simp only [extent] at hb; omega
  | cons i is ih =>
    cases i with
    | mark l => exact ih h.2 hab hb
    | node n =>
      rcases Nat.eq_or_lt_of_le hab with rfl | hlt
      · exact ⟨n, List.mem_cons_self, h.1⟩
      · simp only [extent] at hb
        obtain ⟨m, hm, hcode⟩ := ih h.2 hlt (by omega)
        exact ⟨m, List.mem_cons_of_mem n hm, hcode⟩

lemma Program.holds_of_mem_funcs (h : Program.ofUnit u = .ok p) (hr : r ∈ p.funcs) :
    ∃ f ∈ u.functions, Program.Holds p f r :=
  Program.exists_of_forall₂ (Program.ranges_of_ofUnit h).1.flip hr

end TreeMachine.Linear

namespace TreeMachine.Machine

open Structured
open Linear

/-! ### What a step can do -/

/-- What a step can do: leave a frame that is at its end, fail outside of the function, or run the
node that the frame is at. -/
inductive Turns (M : Setup) (s : State) : EStateM.Result Fault State Signal → Prop where
  | stop (ip : s.frame.ip = s.frame.fn.stop) : Turns M s (leave M.program [] s)
  | outside (ip : s.frame.ip ≠ s.frame.fn.stop) (out : s.Outside) :
    Turns M s (.error (.badInstruction s.frame.ip) s)
  | missing (inside : s.Inside) (code : M.program.code[s.frame.ip.toNat]? = none) :
    Turns M s (.error (.badInstruction s.frame.ip) s)
  | fails {n : Node} {c : Fault} {s1 : State} (here : At M s n)
    (exec : exec M.program n s = .error c s1) (same : SameFrames s s1) : Turns M s (.error c s1)
  | node {n : Node} {flow : Flow} {s1 : State} (here : At M s n)
    (exec : exec M.program n s = .ok flow s1) (same : SameFrames s s1)
    (leads : Leads M.program n flow) : Turns M s (follow M flow s1)

section

variable {M : Setup} {s : State} {n : Node}

lemma follow_goto (h : addr ≠ -1) :
    follow M (.goto addr) s = .ok .running { s with frame := { s.frame with ip := addr } } := by
  simp only [follow, goto, h, if_false]
  rfl

lemma follow_goto_neg_one : follow M (.goto (-1)) s = leave M.program [] s := by
  simp only [follow, goto, if_true]

lemma follow_enter : follow M (.enter fn addr args) s = if M.maxDepth ≤ s.depth
      then .error (.callDepthExceeded s.depth) s
      else .ok .running (entered M s fn addr args) := by
  by_cases hdeep : M.maxDepth ≤ s.depth
  · simp only [follow, enter, bind, EStateM.bind, get_eq, hdeep, if_true]
    rfl
  · simp only [follow, enter, bind, EStateM.bind, get_eq, hdeep, if_false]
    rfl

lemma turns_step (M : Setup) (s : State) : Turns M s (step M s) := by
  by_cases hstop : s.frame.ip = s.frame.fn.stop
  · rw [step_of_stop hstop]
    exact .stop hstop
  by_cases hout : s.Outside
  · rw [step_of_outside hstop hout]
    exact .outside hstop hout
  have hin := State.inside_of_not hstop hout
  cases hn : M.program.code[s.frame.ip.toNat]? with
  | some n =>
    have hhere : At M s n := ⟨hin, hn⟩
    have hsame := Abides.exec allows_sameFrames (fun _ _ _ _ => trivial) M.program n s
    rw [hhere.step]
    cases he : exec M.program n s with
    | error c s1 =>
      rw [he] at hsame
      rw [bind_error he]
      exact .fails hhere he hsame.1
    | ok flow s1 =>
      rw [he] at hsame
      rw [bind_ok he]
      exact .node hhere he hsame (leads_exec _ n _ _ _ he)
  | none =>
    rw [step_of_missing hin hn]
    exact .missing hin hn

end

/-! ### Frames and functions -/

/-- Every active frame runs a function of the program, and those that wait stand at a node of
it. -/
structure Housed (p : Program) (s : State) : Prop where
  running : s.frame.fn ∈ p.funcs
  waiting : ∀ w ∈ s.waiting, w.fn ∈ p.funcs ∧ (w.fn.start : Int) ≤ w.ip ∧ w.ip < w.fn.stop

lemma inside_of_callee (hle : ∀ r ∈ p.funcs, r.start ≤ r.stop) (h : callee p name addr = .ok r) :
    r ∈ p.funcs ∧ (r.start : Int) ≤ addr ∧ addr ≤ r.stop := by
  have hlocated : callee.located p addr = .ok r →
      r ∈ p.funcs ∧ (r.start : Int) ≤ addr ∧ addr ≤ r.stop := by
    unfold callee.located
    cases hf : p.functionAt addr with
    | none =>
      intro hr
      cases hr
    | some r' =>
      intro hr
      cases hr
      have hin := Program.contains_of_functionAt hf
      exact ⟨hin.1, hin.2.1, Int.le_of_lt hin.2.2⟩
  unfold callee at h
  cases he : p.entry name with
  | none =>
    rw [he] at h
    exact hlocated h
  | some r' =>
    simp only [he] at h
    split at h
    next hstart =>
      cases h
      have hmem := List.mem_of_find?_eq_some he
      have := hle r hmem
      exact ⟨hmem, by omega, by omega⟩
    next => exact hlocated h

def Transfers (M : Setup) (s : State) (addr : Int) : Prop :=
  ∃ n s1, At M s n ∧ exec M.program n s = .ok (.goto addr) s1

/-- The address that the next node goes to, if it goes to one. -/
def transfer? (M : Setup) (s : State) : Option Int :=
  if s.Inside then
    match M.program.code[s.frame.ip.toNat]? with
    | none => none
    | some n =>
      match exec M.program n s with
      | .ok (.goto addr) _ => some addr
      | _ => none
  else none

lemma transfer?_eq_some : transfer? M s = some addr ↔ Transfers M s addr := by
  unfold transfer?
  constructor
  · intro h
    split at h
    next hin =>
      split at h
      · cases h
      next n hn =>
        split at h
        next a s1 he =>
          cases h
          exact ⟨n, s1, ⟨hin, hn⟩, he⟩
        · cases h
    · cases h
  · rintro ⟨n, s1, ⟨hin, hn⟩, he⟩
    rw [if_pos hin, hn]
    simp only [he]

instance (M : Setup) (s : State) (addr : Int) : Decidable (Transfers M s addr) :=
  decidable_of_iff _ transfer?_eq_some

/-- The next step leaves the running frame: the run has finished, or it is the caller's turn, even
if the caller refuses the results. -/
def Leaves (M : Setup) (s : State) : Prop :=
  (∃ results s', step M s = .ok (.finished results) s') ∨
    (endOf (step M s)).frames.length < s.frames.length

section

variable {M : Setup} {s s1 s' : State}

lemma Housed.same (h : Housed M.program s) (hs : SameFrames s s1) : Housed M.program s1 :=
  ⟨hs.fn ▸ h.running, hs.waiting ▸ h.waiting⟩

lemma Housed.at (h : Housed M.program s) (ip : Int) :
    Housed M.program { s with frame := { s.frame with ip } } :=
  ⟨h.running, h.waiting⟩

lemma Housed.leave (h : Housed M.program s) (hs : leave M.program results s = .ok .running s') :
    Housed M.program s' ∧ ¬s'.Outside := by
  cases hw : s.waiting with
  | nil =>
    rw [leave_of_nil hw] at hs
    cases hs
  | cons w W =>
    obtain ⟨hmem, hstart, hstop⟩ := h.waiting w (by simp [hw])
    have hcaller : ∀ ops depth, Housed M.program
        { s with operands := ops, depth := depth, frame := w, waiting := W } := by
      refine fun ops depth => ⟨hmem, fun w' hw' => h.waiting w' ?_⟩
      rw [hw]
      exact List.mem_cons_of_mem w hw'
    cases hn : M.program.code[w.ip.toNat]? with
    | none =>
      simp only [Machine.leave, bind, EStateM.bind, modify_eq, get_eq, hw, set,
        EStateM.set, hn] at hs
      cases hs
      exact ⟨hcaller _ _, State.Inside.not_outside ⟨hstart, hstop⟩⟩
    | some n =>
      rw [leave_of_cons hw hn] at hs
      have hcaller := hcaller (s.operands.truncate s.frame.base) (s.depth - 1)
      generalize hs2 : ({ s with
        operands := s.operands.truncate s.frame.base, depth := s.depth - 1
        frame := w, waiting := W } : State) = s2 at hs hcaller
      have hsame := Abides.deliver allows_sameFrames n results s2
      unfold returned at hs
      cases hd : deliver n results s2 with
      | error c s3 =>
        rw [bind_error hd] at hs
        cases hs
      | ok x s3 =>
        rw [hd] at hsame
        rw [bind_ok hd] at hs
        cases hs
        refine ⟨(hcaller.same hsame).at _, ?_⟩
        have hfn : s3.frame.fn = w.fn := by rw [hsame.fn, ← hs2]
        have hip : s3.frame.ip = w.ip := by rw [hsame.ip, ← hs2]
        show ¬(s3.frame.ip + 1 < s3.frame.fn.start ∨ (s3.frame.fn.stop : Int) < s3.frame.ip + 1)
        rw [hfn, hip]
        omega

/-- Frames stay in functions of the program, and no step but a jump leads out of one. -/
lemma housed_step (hle : ∀ r ∈ M.program.funcs, r.start ≤ r.stop) (h : Housed M.program s)
    (hs : step M s = .ok .running s') :
    Housed M.program s' ∧ (s'.Outside → Transfers M s s'.frame.ip) := by
  have hturns := turns_step M s
  rw [hs] at hturns
  generalize hr : (.ok .running s' : EStateM.Result Fault State Signal) = r at hturns
  cases hturns with
  | stop _ =>
    obtain ⟨hhoused, hin⟩ := h.leave hr.symm
    exact ⟨hhoused, fun hout => absurd hout hin⟩
  | outside _ _ => cases hr
  | missing _ _ => cases hr
  | fails _ _ _ => cases hr
  | @node n flow s1 hhere he hsame hleads =>
    have h1 := h.same hsame
    cases flow with
    | next =>
      cases hr
      refine ⟨h1.at _, fun hout => absurd hout ?_⟩
      have hin := hhere.inside
      unfold State.Inside at hin
      show ¬(s1.frame.ip + 1 < s1.frame.fn.start ∨ (s1.frame.fn.stop : Int) < s1.frame.ip + 1)
      rw [hsame.ip, hsame.fn]
      omega
    | leave results =>
      obtain ⟨hhoused, hin⟩ := h1.leave hr.symm
      exact ⟨hhoused, fun hout => absurd hout hin⟩
    | goto addr =>
      by_cases haddr : addr = -1
      · subst haddr
        rw [follow_goto_neg_one] at hr
        obtain ⟨hhoused, hin⟩ := h1.leave hr.symm
        exact ⟨hhoused, fun hout => absurd hout hin⟩
      · rw [follow_goto haddr] at hr
        cases hr
        exact ⟨h1.at _, fun _ => ⟨n, s1, hhere, he⟩⟩
    | enter fn addr args =>
      rw [follow_enter] at hr
      by_cases hdeep : M.maxDepth ≤ s1.depth
      · rw [if_pos hdeep] at hr
        cases hr
      rw [if_neg hdeep] at hr
      cases hr
      obtain ⟨-, name, hcallee⟩ := hleads
      obtain ⟨hmem, hstart, hstop⟩ := inside_of_callee hle hcallee
      refine ⟨⟨hmem, fun w hw => ?_⟩, ?_⟩
      · rcases List.mem_cons.1 hw with rfl | hw
        · rw [hsame.fn, hsame.ip]
          exact ⟨h.running, hhere.inside⟩
        · exact h1.waiting w hw
      · rintro (hlt | hlt)
        · exact absurd hstart (Int.not_le.2 hlt)
        · exact absurd hstop (Int.not_le.2 hlt)

lemma housed_of_reaches (hle : ∀ r ∈ M.program.funcs, r.start ≤ r.stop)
    (h : Housed M.program s) (hr : Reaches M s s') : Housed M.program s' := by
  obtain ⟨n, hr⟩ := hr
  induction hr with
  | refl => exact h
  | head _ hs _ ih => exact ih (housed_step hle h hs).1

lemma eq_or_last (h : Reaches M s s') :
    s = s' ∨ ∃ t, Reaches M s t ∧ step M t = .ok .running s' := by
  obtain ⟨n, h⟩ := h
  induction h with
  | refl => exact .inl rfl
  | head _ hs _ ih =>
    rcases ih with rfl | ⟨t, hr, ht⟩
    · exact .inr ⟨_, .refl _, hs⟩
    · exact .inr ⟨t, Path.head trivial hs hr, ht⟩

lemma cases_of_leaves (h : Leaves M s) :
    s.frame.ip = s.frame.fn.stop ∨ (∃ xs, At M s (.stmt (.ret xs))) ∨ Transfers M s (-1) := by
  have hturns := turns_step M s
  unfold Leaves at h
  generalize step M s = r at h hturns
  cases hturns with
  | stop hip => exact .inl hip
  | outside _ _ => simp [endOf] at h
  | missing _ _ => simp [endOf] at h
  | fails _ _ hsame => simp [endOf, State.frames, hsame.waiting] at h
  | @node n flow s1 hhere he hsame hleads =>
    cases flow with
    | next =>
      rcases h with ⟨results, s', hfin⟩ | hlt
      · cases hfin
      · change s1.waiting.length + 1 < s.waiting.length + 1 at hlt
        rw [hsame.waiting] at hlt
        exact absurd hlt (lt_irrefl _)
    | leave results =>
      obtain ⟨xs, rfl⟩ := hleads
      exact .inr (.inl ⟨xs, hhere⟩)
    | goto addr =>
      by_cases haddr : addr = -1
      · subst haddr
        exact .inr (.inr ⟨n, s1, hhere, he⟩)
      · rw [follow_goto haddr] at h
        simp [endOf, State.frames, hsame.waiting] at h
    | enter fn addr args =>
      rw [follow_enter] at h
      split at h
      · simp [endOf, State.frames, hsame.waiting] at h
      · simp [endOf, State.frames, entered, hsame.waiting] at h

lemma fails_of_transfers (h : Transfers M s addr) (hne : addr ≠ -1)
    (hout : addr < s.frame.fn.start ∨ (s.frame.fn.stop : Int) < addr)
    (hle : s.frame.fn.start ≤ s.frame.fn.stop) :
    ∃ s', Reaches M s s' ∧ step M s' = .error (.badInstruction addr) s' := by
  obtain ⟨n, s1, hhere, he⟩ := h
  have hsame := Abides.exec allows_sameFrames (fun _ _ _ _ => trivial) M.program n s
  rw [he] at hsame
  have hstep : step M s = .ok .running { s1 with frame := { s1.frame with ip := addr } } := by
    rw [hhere.step, bind_ok he, follow_goto hne]
  refine ⟨_, Path.single trivial hstep, step_of_outside ?_ ?_⟩
  · show addr ≠ s1.frame.fn.stop
    rw [hsame.fn]
    omega
  · show addr < s1.frame.fn.start ∨ (s1.frame.fn.stop : Int) < addr
    rw [hsame.fn]
    exact hout

end

/-! ### Calls -/

/-- The next step runs a node of the running frame's function. -/
structure Executes (M : Setup) (u : CodeUnit) (s : State) (n : Node) : Prop extends At M s n where
  node : ∃ f ∈ u.functions, f.name = s.frame.fn.name ∧ n ∈ nodes (itemsOf f.body)
  step : step M s = (exec M.program n >>= follow M) s

section

variable {u : CodeUnit} {o : Options} {m0 m : Machine} {name : String} {args : List Int32}
  {s : State}

lemma setup_of_serves (h0 : ofUnit? (some u) o = .ok m0) (h : Relation.ReflTransGen Serves m0 m) :
    m.Idle ∧ 0 < m.setup.maxDepth ∧ Program.ofUnit u = .ok m.setup.program := by
  obtain ⟨hidle0, hmax0⟩ := idle_of_ofUnit? h0
  have hpos := Options.depthLimit_pos o
  have hprogram : Program.ofUnit u = .ok m0.setup.program := by
    obtain ⟨p, hp, h0⟩ := Except.bind_eq_ok h0
    obtain ⟨_, -, h0⟩ := Except.bind_eq_ok h0
    cases h0
    exact hp
  induction h with
  | refl => exact ⟨hidle0, by omega, hprogram⟩
  | tail _ hserves ih =>
    obtain ⟨fuel, name, args, outcome, hcall⟩ := hserves
    obtain ⟨hidle, hsetup, -⟩ := idle_callAll ih.1 ih.2.1 hcall
    exact ⟨hidle, hsetup ▸ ih.2⟩

lemma start_le_stop (h : Program.ofUnit u = .ok p) : ∀ r ∈ p.funcs, r.start ≤ r.stop := by
  intro r hr
  obtain ⟨f, -, hholds⟩ := Program.holds_of_mem_funcs h hr
  rw [hholds.stop]
  exact Nat.le_add_right _ _

lemma housed_of_start (hle : ∀ r ∈ m.setup.program.funcs, r.start ≤ r.stop)
    (h : m.start name addr args = .ok s) : Housed m.setup.program s ∧ ¬s.Outside := by
  unfold start at h
  obtain ⟨fn, hcallee, h⟩ := Except.bind_eq_ok h
  obtain ⟨hmem, hstart, hstop⟩ := inside_of_callee hle hcallee
  by_cases hdeep : m.setup.maxDepth ≤ m.depth
  · simp only [hdeep, if_true] at h
    cases h
  simp only [hdeep, if_false] at h
  cases h
  refine ⟨⟨hmem, fun w hw => (by cases hw)⟩, ?_⟩
  rintro (hlt | hlt)
  · exact absurd hstart (Int.not_le.2 hlt)
  · exact absurd hstop (Int.not_le.2 hlt)

lemma transfers_of_outside (hle : ∀ r ∈ m.setup.program.funcs, r.start ≤ r.stop)
    (hs : m.During name args s) (hout : s.Outside) :
    ∃ t, m.During name args t ∧ step m.setup t = .ok .running s ∧
      Transfers m.setup t s.frame.ip := by
  obtain ⟨addr, s0, hl, hs0, hr⟩ := hs
  obtain ⟨hhoused, hin⟩ := housed_of_start hle hs0
  rcases eq_or_last hr with rfl | ⟨t, hr, ht⟩
  · exact absurd hout hin
  · exact ⟨t, ⟨addr, s0, hl, hs0, hr⟩, ht,
      (housed_step hle (housed_of_reaches hle hhoused hr) ht).2 hout⟩

/-- Where control goes. In every state of every call the running frame has come to the end of its
function, runs one of its nodes, or is outside of it and fails. A frame is left at the end, by a
return, or by a jump to minus one. Only jumps lead out of a function, and those to any other
address end the call with an error. -/
theorem control_inside (h0 : ofUnit? (some u) o = .ok m0) (h : Relation.ReflTransGen Serves m0 m)
    (hs : m.During name args s) :
    (s.frame.ip = s.frame.fn.stop ∨ (∃ n, Executes m.setup u s n) ∨
        s.Outside ∧ step m.setup s = .error (.badInstruction s.frame.ip) s) ∧
      (Leaves m.setup s → s.frame.ip = s.frame.fn.stop ∨
        (∃ xs, Executes m.setup u s (.stmt (.ret xs))) ∨ Transfers m.setup s (-1)) ∧
      (s.Outside → ∃ t, m.During name args t ∧ step m.setup t = .ok .running s ∧
        Transfers m.setup t s.frame.ip) ∧
      ∀ addr, Transfers m.setup s addr → addr ≠ -1 →
        addr < s.frame.fn.start ∨ (s.frame.fn.stop : Int) < addr →
        m.FailsWith name args "BAD_INSTRUCTION_POINTER" := by
  obtain ⟨-, -, hprogram⟩ := setup_of_serves h0 h
  have hle := start_le_stop hprogram
  have hhoused : Housed m.setup.program s := by
    obtain ⟨addr, s0, -, hs0, hr⟩ := hs
    exact housed_of_reaches hle (housed_of_start hle hs0).1 hr
  obtain ⟨f, hf, hholds⟩ := Program.holds_of_mem_funcs hprogram hhoused.running
  have hnode : s.Inside → ∃ n ∈ nodes (itemsOf f.body),
      m.setup.program.code[s.frame.ip.toNat]? = some n := by
    rintro ⟨hstart, hstop⟩
    rw [hholds.stop] at hstop
    exact hholds.placed.exists_node (by omega) (by omega)
  have hexec : ∀ n, At m.setup s n → Executes m.setup u s n := by
    intro n hn
    obtain ⟨n', hmem, hn'⟩ := hnode hn.inside
    obtain rfl : n = n' := hn.unique ⟨hn.inside, hn'⟩
    exact ⟨hn, ⟨f, hf, hholds.name.symm, hmem⟩, hn.step⟩
  refine ⟨?_, fun hl => ?_, transfers_of_outside hle hs, fun addr ht hne hout => ?_⟩
  · by_cases hstop : s.frame.ip = s.frame.fn.stop
    · exact .inl hstop
    by_cases hout : s.Outside
    · exact .inr (.inr ⟨hout, step_of_outside hstop hout⟩)
    have hin : s.Inside := by
      unfold State.Outside at hout
      unfold State.Inside
      omega
    obtain ⟨n, -, hn⟩ := hnode hin
    exact .inr (.inl ⟨n, hexec n ⟨hin, hn⟩⟩)
  · rcases cases_of_leaves hl with hstop | ⟨xs, hret⟩ | ht
    · exact .inl hstop
    · exact .inr (.inl ⟨xs, hexec _ hret⟩)
    · exact .inr (.inr ht)
  · obtain ⟨t, hr, hfails⟩ := fails_of_transfers ht hne hout (hle _ hhoused.running)
    obtain ⟨addr', s0, hl, hs0, hr0⟩ := hs
    exact failsWith_of_during ⟨addr', s0, hl, hs0, hr0.trans hr⟩ hfails

end

def leaping (addr : Int32) : CodeUnit where
  name := "leaping"
  functions := [{ name := "main", params := [], body := .jump (.const addr) }]

/-- The state after a step of a run that goes on. -/
def next? (M : Setup) (s : State) : Option State :=
  match step M s with
  | .ok .running s' => some s'
  | _ => none

theorem fails_of_leaping : ∃ m s, ofUnit? (some (leaping 7)) {} = .ok m ∧
    m.During "main" [] s ∧ Transfers m.setup s 7 ∧
      m.FailsWith "main" [] "BAD_INSTRUCTION_POINTER" := by
  have hrun : ((ofUnit? (some (leaping 7)) {}).toOption.bind fun m =>
    (m.setup.program.labels["main"]?).bind fun addr =>
    (m.start "main" addr []).toOption.bind fun s0 =>
    (next? m.setup s0).map fun s =>
      decide (Transfers m.setup s 7 ∧ (s.frame.fn.stop : Int) < 7)) = some true := by
    decide +kernel
  obtain ⟨m, hm, hrun⟩ := Except.bind_eq_some.1 hrun
  obtain ⟨addr, hl, hrun⟩ := Option.bind_eq_some_iff.1 hrun
  obtain ⟨s0, hs0, hrun⟩ := Except.bind_eq_some.1 hrun
  obtain ⟨s, hs, hrun⟩ := Option.map_eq_some_iff.1 hrun
  obtain ⟨ht, hstop⟩ := of_decide_eq_true hrun
  have hstep : step m.setup s0 = .ok .running s := by
    unfold next? at hs
    split at hs
    next hstep =>
      cases hs
      exact hstep
    · cases hs
  have hduring : m.During "main" [] s :=
    ⟨addr, s0, hl, hs0, Path.single trivial hstep⟩
  obtain ⟨-, -, -, hfails⟩ := control_inside hm .refl hduring
  exact ⟨m, s, hm, hduring, ht, hfails 7 ht (by decide) (.inr hstop)⟩

/-- Minus one is outside of the function, and a jump there returns from it. -/
theorem left_by_jump : ∃ m, ofUnit? (some (leaping (-1))) {} = .ok m ∧
    (m.callAll 10 "main" []).map (fun r => r.1.toOption) = some (some []) := by
  have hrun : ((ofUnit? (some (leaping (-1))) {}).toOption.map fun m =>
    decide ((m.callAll 10 "main" []).map (fun r => r.1.toOption) = some (some []))) =
      some true := by
    decide +kernel
  obtain ⟨m, hm, hrun⟩ := Except.map_eq_some.1 hrun
  exact ⟨m, hm, of_decide_eq_true hrun⟩

end TreeMachine.Machine
