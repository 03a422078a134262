import TreeMachine.Proofs.Effects
import TreeMachine.Proofs.Frames
import TreeMachine.Proofs.Inversion

/-!
# Calls leave nothing behind

A machine is idle between calls: no frame is active and no operand is on the stack. Nothing is
assumed of the code here. It may leave operands behind, take those of its callers, jump out of
its function or fail at any depth; the frames are counted by the steps that enter and leave
them, and the outermost frame has nothing below it.
-/

namespace TreeMachine

open Structured
open Linear

lemma Operands.truncate_zero (s : Operands) : s.truncate 0 = .empty :=
  Operands.truncate_of_suffix (s := .empty) (List.nil_suffix)

lemma Fault.code_eq_iff {c : Fault} : c.code = "CALL_DEPTH_EXCEEDED" ↔ ¬c.Shallow := by
  cases c with
  | callDepthExceeded depth => simp [Fault.code, Fault.Shallow]
  | _ => simp [Fault.code, Fault.Shallow]

lemma Options.depthLimit_pos (o : Options) : 0 < o.depthLimit := by
  unfold depthLimit defaultMaxDepth
  split
  · omega
  · omega

namespace Machine

/-! ### Counting frames -/

def State.frames (s : State) : List Frame :=
  s.frame :: s.waiting

/-- The depth is the number of active frames, within the limit, and below the outermost frame
there is nothing on the stack. -/
structure Counted (M : Setup) (s : State) : Prop where
  depth : s.depth = s.frames.length
  le : s.depth ≤ M.maxDepth
  root : (s.frames.map Frame.base).getLast? = some 0

/-- What a step makes of a state whose frames are counted. A run that has finished has left
every frame; a failure finds the frames that it interrupts, and is about their number just if
the step goes too deep. -/
def Counts (M : Setup) (deep : Prop) : EStateM.Result Fault State Signal → Prop
  | .ok .running s => Counted M s ∧ ¬deep
  | .ok (.finished _) s => (s.depth = 0 ∧ s.operands = .empty) ∧ ¬deep
  | .error c s => s.depth = s.frames.length ∧ (c.Shallow ↔ ¬deep)

lemma allows_sameFrames : Allows (fun _ _ => True) SameFrames Fault.Shallow where
  refl := .refl
  trans := .trans
  heap _ _ _ := trivial
  filler _ _ := trivial
  world _ _ _ := ⟨rfl, rfl, rfl, rfl, rfl⟩
  operands _ _ := ⟨rfl, rfl, rfl, rfl, rfl⟩
  registers _ _ := ⟨rfl, rfl, rfl, rfl, rfl⟩
  fault h := h

section

variable {M : Setup} {s s1 : State}

lemma Counted.same (h : Counted M s) (hs : SameFrames s s1) : Counted M s1 where
  depth := by
    have hdepth := h.depth
    simp only [State.frames, List.length_cons, hs.depth, hs.waiting] at hdepth ⊢
    exact hdepth
  le := hs.depth ▸ h.le
  root := by
    have hroot := h.root
    simp only [State.frames, List.map_cons, hs.base, hs.waiting] at hroot ⊢
    exact hroot

lemma Counted.at (h : Counted M s) (ip : Int) : Counted M { s with frame := { s.frame with ip } } :=
  ⟨h.depth, h.le, h.root⟩

lemma Counted.caller (h : Counted M s) (ops : Operands) (hw : s.waiting = w :: W) :
    Counted M { s with operands := ops, depth := s.depth - 1, frame := w, waiting := W } where
  depth := by
    have hdepth := h.depth
    simp only [State.frames, hw, List.length_cons] at hdepth ⊢
    omega
  le := by
    have hle := h.le
    show s.depth - 1 ≤ M.maxDepth
    omega
  root := by
    have hroot := h.root
    simp only [State.frames, hw, List.map_cons, List.getLast?_cons_cons] at hroot ⊢
    exact hroot

lemma counts_leave (h : Counted M s) (results : List Int32) :
    Counts M False (leave M.program results s) := by
  cases hw : s.waiting with
  | nil =>
    have hdepth := h.depth
    have hroot := h.root
    simp only [State.frames, hw, List.length_cons, List.length_nil, List.map_cons, List.map_nil,
      List.getLast?_singleton, Option.some.injEq] at hdepth hroot
    rw [leave_of_nil hw]
    refine ⟨⟨by show s.depth - 1 = 0; omega, ?_⟩, not_false⟩
    show s.operands.truncate s.frame.base = .empty
    rw [hroot, Operands.truncate_zero]
  | cons w W =>
    have hcaller := h.caller (s.operands.truncate s.frame.base) hw
    cases hn : M.program.code[w.ip.toNat]? with
    | none =>
      have hleave : leave M.program results s = .ok .running { s with
            operands := s.operands.truncate s.frame.base, depth := s.depth - 1
            frame := w, waiting := W } := by
        simp only [leave, bind, EStateM.bind, modify_eq, get_eq, hw, set, EStateM.set, hn]
        rfl
      rw [hleave]
      exact ⟨hcaller, not_false⟩
    | some n =>
      rw [leave_of_cons hw hn]
      generalize ({ s with
        operands := s.operands.truncate s.frame.base, depth := s.depth - 1
        frame := w, waiting := W } : State) = s2 at hcaller ⊢
      have hsame := Abides.deliver allows_sameFrames n results s2
      unfold returned
      cases hd : deliver n results s2 with
      | ok x s3 =>
        rw [hd] at hsame
        rw [bind_ok hd]
        exact ⟨(hcaller.same hsame).at _, not_false⟩
      | error c s3 =>
        rw [hd] at hsame
        rw [bind_error hd]
        exact ⟨(hcaller.same hsame.1).depth, iff_of_true hsame.2 not_false⟩

lemma counts_enter (h : Counted M s) (fn : Range) (addr : Int) (args : List Int32) :
    Counts M (s.depth = M.maxDepth)
      ((do enter M fn addr args; return .running : Exec Signal) s) := by
  have hle := h.le
  by_cases hdeep : M.maxDepth ≤ s.depth
  · have hent : enter M fn addr args s = .error (.callDepthExceeded s.depth) s := by
      simp only [enter, bind, EStateM.bind, get_eq, hdeep, if_true]
      rfl
    rw [bind_error hent]
    refine ⟨h.depth, iff_of_false (fun hsh => hsh _ rfl) fun hne => hne ?_⟩
    omega
  · have hent : enter M fn addr args s = .ok () (entered M s fn addr args) := by
      simp only [enter, bind, EStateM.bind, get_eq, hdeep, if_false]
      rfl
    rw [bind_ok hent]
    have hroot := h.root
    refine ⟨⟨congrArg (· + 1) h.depth, ?_, ?_⟩, by omega⟩
    · show s.depth + 1 ≤ M.maxDepth
      omega
    · simp only [State.frames, List.map_cons] at hroot
      simp only [State.frames, entered, List.map_cons, List.getLast?_cons_cons]
      exact hroot

/-! ### Steps -/

/-- The next node calls a function of the program. -/
def Attempts (M : Setup) (s : State) : Prop :=
  (s.frame.fn.start : Int) ≤ s.frame.ip ∧ s.frame.ip < s.frame.fn.stop ∧
    ∃ n fn addr args s', M.program.code[s.frame.ip.toNat]? = some n ∧
      exec M.program n s = .ok (.enter fn addr args) s'

/-- A call is attempted while no further frame may become active. -/
def TooDeep (M : Setup) (s : State) : Prop :=
  Attempts M s ∧ s.frames.length = M.maxDepth

lemma Counts.congr (h : Counts M deep r) (hd : deep ↔ deep') : Counts M deep' r :=
  propext hd ▸ h

/-- Frames stay counted, and a step fails for their number just if it goes too deep. -/
lemma counted_step (h : Counted M s) : Counts M (TooDeep M s) (step M s) := by
  unfold step
  rw [bind_ok (get_eq _)]
  by_cases hstop : s.frame.ip = s.frame.fn.stop
  · have hnot : ¬TooDeep M s := fun hd => by have := hd.1.2.1; omega
    simp only [hstop, if_true]
    exact (counts_leave h []).congr (iff_of_false not_false hnot)
  by_cases hout : s.frame.ip < s.frame.fn.start ∨ (s.frame.fn.stop : Int) < s.frame.ip
  · have hnot : ¬TooDeep M s := fun hd => by have := hd.1.1; have := hd.1.2.1; omega
    simp only [hstop, hout, if_true, if_false]
    exact ⟨h.depth, iff_of_true (by simp [Fault.Shallow]) hnot⟩
  have hin : (s.frame.fn.start : Int) ≤ s.frame.ip ∧ s.frame.ip < s.frame.fn.stop := by omega
  cases hn : M.program.code[s.frame.ip.toNat]? with
  | none =>
    have hnot : ¬TooDeep M s := by
      rintro ⟨⟨-, -, n, fn, addr, args, s', hn', -⟩, -⟩
      rw [hn] at hn'
      cases hn'
    simp only [hstop, hout, if_false, hn]
    exact ⟨h.depth, iff_of_true (by simp [Fault.Shallow]) hnot⟩
  | some n =>
  simp only [hstop, hout, if_false, hn]
  have hattempts : Attempts M s ↔ ∃ fn addr args s', exec M.program n s =
      .ok (.enter fn addr args) s' := by
    constructor
    · rintro ⟨-, -, n', fn, addr, args, s', hn', he⟩
      obtain rfl : n = n' := Option.some.inj (hn.symm.trans hn')
      exact ⟨fn, addr, args, s', he⟩
    · rintro ⟨fn, addr, args, s', he⟩
      exact ⟨hin.1, hin.2, n, fn, addr, args, s', hn, he⟩
  have hsame := Abides.exec allows_sameFrames (fun _ _ _ _ => trivial) M.program n s
  cases he : exec M.program n s with
  | error c s1 =>
    have hnot : ¬TooDeep M s := by
      rintro ⟨ha, -⟩
      obtain ⟨fn, addr, args, s', he'⟩ := hattempts.1 ha
      rw [he] at he'
      cases he'
    rw [he] at hsame
    rw [bind_error he]
    exact ⟨(h.same hsame.1).depth, iff_of_true hsame.2 hnot⟩
  | ok flow s1 =>
    rw [he] at hsame hattempts
    rw [bind_ok he]
    have h1 := h.same hsame
    have hother : (∀ fn addr args, flow ≠ .enter fn addr args) → ¬TooDeep M s := by
      rintro hne ⟨ha, -⟩
      obtain ⟨fn, addr, args, s', he'⟩ := hattempts.1 ha
      cases he'
      exact hne _ _ _ rfl
    cases flow with
    | next => exact ⟨h1.at _, hother (by simp)⟩
    | goto addr =>
      show Counts M _ (goto M.program addr s1)
      unfold goto
      split
      · exact (counts_leave h1 []).congr (iff_of_false not_false (hother (by simp)))
      · exact ⟨h1.at _, hother (by simp)⟩
    | leave results =>
      exact (counts_leave h1 results).congr (iff_of_false not_false (hother (by simp)))
    | enter fn addr args =>
      refine (counts_enter h1 fn addr args).congr ?_
      rw [TooDeep, ← h.depth, hsame.depth]
      exact (and_iff_right (hattempts.2 ⟨fn, addr, args, s1, rfl⟩)).symm

lemma counted_of_reaches (h : Counted M s) (hr : Reaches M s s1) : Counted M s1 := by
  obtain ⟨n, hr⟩ := hr
  induction hr with
  | refl => exact h
  | head _ hs _ ih =>
    have hstep := counted_step h
    rw [hs] at hstep
    exact ih hstep.1

end

/-! ### Runs -/

section

variable {M : Setup} {s s' : State} {fuel : Nat}

lemma of_run (h : run M fuel s = some (r, s')) : ∃ t, Reaches M s t ∧
      ((∃ vs, r = .ok vs ∧ step M t = .ok (.finished vs) s') ∨
        ∃ c, r = .error c ∧ step M t = .error c s') := by
  induction fuel generalizing s with
  | zero => cases h
  | succ fuel ih =>
    rw [run] at h
    cases hs : step M s with
    | error c s1 =>
      rw [hs] at h
      cases h
      exact ⟨s, .refl s, .inr ⟨c, rfl, hs⟩⟩
    | ok sig s1 =>
      rw [hs] at h
      cases sig with
      | finished vs =>
        cases h
        exact ⟨s, .refl s, .inl ⟨vs, rfl, hs⟩⟩
      | running =>
        obtain ⟨t, ht, hend⟩ := ih h
        exact ⟨t, Path.head trivial hs ht, hend⟩

lemma run_eq_none (h : Steps M Q n s t) (hle : fuel ≤ n) : run M fuel s = none := by
  induction h generalizing fuel with
  | refl s =>
    obtain rfl : fuel = 0 := by omega
    rfl
  | head _ hs _ ih =>
    cases fuel with
    | zero => rfl
    | succ fuel =>
      rw [run, hs]
      exact ih (by omega)

lemma run_of_fails (h : run M fuel s = some (r, s')) (ht : Reaches M s t)
    (hf : step M t = .error c t') : r = .error c := by
  obtain ⟨n, ht⟩ := ht
  rcases Nat.lt_or_ge n fuel with hlt | hge
  · obtain ⟨k, rfl⟩ := Nat.exists_eq_add_of_lt hlt
    rw [add_assoc, run_of_steps ht, run, hf] at h
    cases h
    rfl
  · rw [run_eq_none ht hge] at h
    cases h

/-- A run from a state whose frames are counted leaves them all, and fails for their number
just if it comes to a step that goes too deep. -/
lemma counted_run (h0 : Counted M s) (h : run M fuel s = some (r, s')) :
    (∀ vs, r = .ok vs → s'.depth = 0 ∧ s'.operands = .empty) ∧
      (∀ c, r = .error c → s'.depth = s'.frames.length) ∧
      ((∃ c, r = .error c ∧ ¬c.Shallow) ↔ ∃ t, Reaches M s t ∧ TooDeep M t) := by
  obtain ⟨t, ht, hend⟩ := of_run h
  have hcount := counted_step (counted_of_reaches h0 ht)
  have hdeep : (∃ t, Reaches M s t ∧ TooDeep M t) → ∃ c, r = .error c ∧ ¬c.Shallow := by
    rintro ⟨t1, ht1, hd⟩
    have hcount1 := counted_step (counted_of_reaches h0 ht1)
    cases hs : step M t1 with
    | ok sig t2 =>
      rw [hs] at hcount1
      cases sig with
      | running => exact absurd hd hcount1.2
      | finished vs => exact absurd hd hcount1.2
    | error c t2 =>
      rw [hs] at hcount1
      exact ⟨c, run_of_fails h ht1 hs, fun hsh => hcount1.2.1 hsh hd⟩
  rcases hend with ⟨vs, rfl, hs⟩ | ⟨c, rfl, hs⟩
  · rw [hs] at hcount
    refine ⟨fun _ _ => hcount.1, fun c hc => (by cases hc), ⟨?_, hdeep⟩⟩
    rintro ⟨c, hc, -⟩
    cases hc
  · rw [hs] at hcount
    refine ⟨fun vs hvs => (by cases hvs), fun _ _ => hcount.1, ⟨?_, hdeep⟩⟩
    rintro ⟨c', hc', hne⟩
    cases hc'
    exact ⟨t, ht, by_contra fun hnot => hne (hcount.2.2 hnot)⟩

end

end Machine

/-! ### Calls -/

open Machine

/-- No call is active. -/
structure Machine.Idle (m : Machine) : Prop where
  operands : m.operands = .empty
  depth : m.depth = 0

namespace Machine

def During (m : Machine) (name : String) (args : List Int32) (s : State) : Prop :=
  ∃ addr s0, m.setup.program.labels[name]? = some addr ∧ m.start name addr args = .ok s0 ∧
    Reaches m.setup s0 s

def Serves (m m' : Machine) : Prop :=
  ∃ fuel name args outcome, m.callAll fuel name args = some (outcome, m')

section

variable {m m' : Machine} {name : String} {args : List Int32} {fuel : Nat}

lemma start_cases (m : Machine) (name : String) (addr : Nat) (args : List Int32)
    (hdepth : m.depth < m.setup.maxDepth) :
    (∃ c, m.start name addr args = .error c ∧ c.Shallow) ∨
      ∃ s, m.start name addr args = .ok s ∧ s.operands = m.operands ∧ s.waiting = [] ∧
        s.depth = m.depth + 1 ∧ s.frame.base = m.operands.height := by
  have hdeep : ¬m.setup.maxDepth ≤ m.depth := by omega
  unfold start
  cases hc : callee m.setup.program name addr with
  | error c =>
    obtain rfl := badInstruction_of_callee hc
    exact .inl ⟨_, rfl, by simp [Fault.Shallow]⟩
  | ok fn =>
    refine .inr ⟨_, by simp only [bind, Except.bind, hdeep, if_false]; rfl, rfl, rfl, rfl, rfl⟩

lemma counted_start (hm : m.Idle) (hmax : 0 < m.setup.maxDepth)
    (h : m.start name addr args = .ok s) : Counted m.setup s := by
  rcases start_cases m name addr args (by rw [hm.depth]; exact hmax) with ⟨c, hc, -⟩ | ⟨s1, hs, -,
    hwait, hdepth, hbase⟩
  · rw [h] at hc
    cases hc
  · obtain rfl : s = s1 := Except.ok.inj (h.symm.trans hs)
    rw [hm.depth] at hdepth
    refine ⟨by rw [hdepth, State.frames, hwait]; rfl, by omega, ?_⟩
    rw [State.frames, hwait, List.map_cons, hbase, hm.operands]
    rfl

lemma idle_invoke (hm : m.Idle) (hmax : 0 < m.setup.maxDepth)
    (h : m.invoke fuel name args = some (r, m')) :
    m'.depth = 0 ∧ m'.setup = m.setup ∧ (∀ vs, r = .ok vs → m'.operands = .empty) ∧
      ((∃ c, r = .error c ∧ ¬c.Shallow) ↔ ∃ s, During m name args s ∧ TooDeep m.setup s) := by
  unfold invoke at h
  cases hl : m.setup.program.labels[name]? with
  | none =>
    have hnever : ¬∃ s, During m name args s ∧ TooDeep m.setup s := by
      rintro ⟨s, ⟨addr, s0, hl', -⟩, -⟩
      rw [hl] at hl'
      cases hl'
    rw [hl] at h
    cases hr : Routine.ofName? name with
    | none =>
      rw [hr] at h
      cases h
      refine ⟨hm.depth, rfl, fun _ _ => hm.operands, iff_of_false ?_ hnever⟩
      rintro ⟨c, hc, hne⟩
      cases hc
      exact hne (by simp [Fault.Shallow])
    | some routine =>
      simp only [hr] at h
      cases hrun : routine.run rootName args m.world with
      | ok results world =>
        rw [hrun] at h
        cases h
        refine ⟨hm.depth, rfl, fun _ _ => hm.operands, iff_of_false ?_ hnever⟩
        rintro ⟨c, hc, -⟩
        cases hc
      | error cause world =>
        rw [hrun] at h
        cases h
        refine ⟨hm.depth, rfl, fun _ _ => hm.operands, iff_of_false ?_ hnever⟩
        rintro ⟨c, hc, hne⟩
        cases hc
        exact hne (Routine.shallow_run _ _ _ _ _ _ hrun)
  | some addr =>
    rw [hl] at h
    have hduring : ∀ {s0 s}, m.start name addr args = .ok s0 →
        (During m name args s ↔ Reaches m.setup s0 s) := by
      intro s0 s hs0
      constructor
      · rintro ⟨addr', s1, hl', hs1, hs⟩
        obtain rfl : addr = addr' := Option.some.inj (hl.symm.trans hl')
        obtain rfl : s0 = s1 := Except.ok.inj (hs0.symm.trans hs1)
        exact hs
      · exact fun hs => ⟨addr, s0, hl, hs0, hs⟩
    cases hs0 : m.start name addr args with
    | error cause =>
      simp only [hs0] at h
      cases h
      refine ⟨hm.depth, rfl, fun _ _ => hm.operands, iff_of_false ?_ ?_⟩
      · rintro ⟨c, hc, hne⟩
        cases hc
        rcases start_cases m name addr args (by rw [hm.depth]; exact hmax) with
          ⟨c, hc, hsh⟩ | ⟨s1, hs, -⟩
        · obtain rfl : cause = c := Except.error.inj (hs0.symm.trans hc)
          exact hne hsh
        · rw [hs0] at hs
          cases hs
      · rintro ⟨s, ⟨addr', s1, hl', hs1, -⟩, -⟩
        obtain rfl : addr = addr' := Option.some.inj (hl.symm.trans hl')
        rw [hs0] at hs1
        cases hs1
    | ok s0 =>
      simp only [hs0] at h
      obtain ⟨⟨r', s'⟩, hrun, hres⟩ := Option.map_eq_some_iff.1 h
      obtain ⟨hok, herr, hdeep⟩ := counted_run (counted_start hm hmax hs0) hrun
      have hiff : (∃ s, During m name args s ∧ TooDeep m.setup s) ↔
          ∃ t, Reaches m.setup s0 t ∧ TooDeep m.setup t := by
        simp only [hduring hs0]
      cases hres
      cases r' with
      | ok vs =>
        obtain ⟨hdepth, hops⟩ := hok vs rfl
        exact ⟨hdepth, rfl, fun _ _ => hops, hdeep.trans hiff.symm⟩
      | error c =>
        have hdepth := herr c rfl
        refine ⟨?_, rfl, fun vs hvs => (by cases hvs), hdeep.trans hiff.symm⟩
        show s'.depth - (s'.frame :: s'.waiting).length = 0
        rw [hdepth, State.frames, Nat.sub_self]

/-- After a call the machine is idle again, and the call fails for its depth just if it comes
to a step that goes too deep. -/
lemma idle_callAll (hm : m.Idle) (hmax : 0 < m.setup.maxDepth)
    (h : m.callAll fuel name args = some (outcome, m')) :
    m'.Idle ∧ m'.setup = m.setup ∧ ((∃ e, outcome = .error e ∧ e.code = "CALL_DEPTH_EXCEEDED") ↔
        ∃ s, During m name args s ∧ TooDeep m.setup s) := by
  obtain ⟨⟨r, after⟩, hinv, hres⟩ := Option.map_eq_some_iff.1 h
  obtain ⟨hdepth, hsetup, hops, hdeep⟩ := idle_invoke hm hmax hinv
  rw [← hdeep]
  simp only [hm.depth, if_true] at hres
  unfold settle at hres
  cases r with
  | ok vs =>
    have hnot : ¬∃ c, (.ok vs : Except Fault (List Int32)) = .error c ∧ ¬c.Shallow := by
      rintro ⟨c, hc, -⟩
      cases hc
    cases hfl : World.flush after.world with
    | ok x world =>
      simp only [hfl, Except.mapError, Error.wrap] at hres
      cases hres
      refine ⟨⟨hops vs rfl, hdepth⟩, hsetup, iff_of_false ?_ hnot⟩
      rintro ⟨e, he, -⟩
      cases he
    | error cause world =>
      simp only [hfl, Except.mapError, Error.wrap] at hres
      cases hres
      refine ⟨⟨rfl, hdepth⟩, hsetup, iff_of_false ?_ hnot⟩
      rintro ⟨e, he, hcode⟩
      cases he
      exact Fault.code_eq_iff.1 hcode (World.plain_flush _ _ _ hfl).shallow
  | error c =>
    have hset : (.error (.within s!"call {name}" (.fault c {})), { after with
        world := endOf (World.flush after.world), operands := .empty }) = (outcome, m') := by
      cases hfl : World.flush after.world <;>
        simpa only [hfl, Except.mapError, Error.wrap, endOf] using hres
    cases hset
    refine ⟨⟨rfl, hdepth⟩, hsetup, ?_, ?_⟩
    · rintro ⟨e, he, hcode⟩
      cases he
      exact ⟨c, rfl, Fault.code_eq_iff.1 hcode⟩
    · rintro ⟨c', hc', hne⟩
      cases hc'
      exact ⟨_, rfl, Fault.code_eq_iff.2 hne⟩

end

lemma idle_of_ofUnit? (h : ofUnit? u o = .ok m) :
    m.Idle ∧ m.setup.maxDepth = o.depthLimit.toNat := by
  obtain ⟨p, -, hp⟩ := Except.bind_eq_ok h
  obtain ⟨_, -, h⟩ := Except.bind_eq_ok hp
  cases h
  exact ⟨⟨rfl, rfl⟩, rfl⟩

/-- A machine for any linked code is idle between calls, however they ended. While a call
goes on, no more frames are active than the limit allows, and it fails for its depth just if
it attempts to call a function of the program when they are that many. -/
theorem idle_between_calls {u : Option CodeUnit} {o : Options} {m0 m : Machine}
    (h0 : ofUnit? u o = .ok m0) (h : Relation.ReflTransGen Serves m0 m) :
    m.operands = .empty ∧ m.depth = 0 ∧
      (∀ name args s, m.During name args s → (s.frames.length : Int) ≤ o.depthLimit) ∧
      ∀ fuel name args outcome m', m.callAll fuel name args = some (outcome, m') →
        ((∃ e, outcome = .error e ∧ e.code = "CALL_DEPTH_EXCEEDED") ↔
          ∃ s, m.During name args s ∧ Attempts m.setup s ∧
            (s.frames.length : Int) = o.depthLimit) := by
  obtain ⟨hidle0, hmax0⟩ := idle_of_ofUnit? h0
  have hpos := Options.depthLimit_pos o
  have hm : m.Idle ∧ m.setup.maxDepth = o.depthLimit.toNat := by
    induction h with
    | refl => exact ⟨hidle0, hmax0⟩
    | tail _ hserves ih =>
      obtain ⟨fuel, name, args, outcome, hcall⟩ := hserves
      obtain ⟨hidle, hsetup, -⟩ := idle_callAll ih.1 (by omega) hcall
      exact ⟨hidle, hsetup ▸ ih.2⟩
  obtain ⟨hidle, hmax⟩ := hm
  refine ⟨hidle.operands, hidle.depth, ?_, ?_⟩
  · rintro name args s ⟨addr, s0, -, hs0, hs⟩
    have hcounted := counted_of_reaches (counted_start hidle (by omega) hs0) hs
    have hle := hcounted.le
    rw [hcounted.depth] at hle
    omega
  · intro fuel name args outcome m' hcall
    obtain ⟨-, -, hdeep⟩ := idle_callAll hidle (by omega) hcall
    refine hdeep.trans (exists_congr fun s => and_congr_right fun _ => and_congr_right fun _ => ?_)
    omega

def descending : CodeUnit where
  name := "descending"
  functions := [{ name := "down", params := [], body := .exp (.call (.name "down") []) }]

theorem idle_after_descending : ∃ m0 m e, ofUnit? (some descending) { maxDepth := 2 } = .ok m0 ∧
    m0.callAll 20 "down" [] = some (.error e, m) ∧ m.operands = .empty ∧ m.depth = 0 ∧
      ∀ s, m.During "down" [] s → (s.frames.length : Int) ≤ 2 := by
  have hrun : ((ofUnit? (some descending) { maxDepth := 2 }).toOption.bind fun m0 =>
    (m0.callAll 20 "down" []).map fun r => r.1.toOption.isNone) = some true := by
    decide +kernel
  obtain ⟨m0, hm0, hrun⟩ := Except.bind_eq_some.1 hrun
  obtain ⟨⟨outcome, m⟩, hcall, hnone⟩ := Option.map_eq_some_iff.1 hrun
  have h0 := hm0
  obtain ⟨hops, hdepth, hframes, -⟩ :=
    idle_between_calls h0 (.single ⟨20, "down", [], outcome, hcall⟩)
  cases outcome with
  | ok vs => cases hnone
  | error e => exact ⟨m0, m, e, h0, hcall, hops, hdepth, hframes "down" []⟩

end Machine

end TreeMachine
