import TreeMachine.Proofs.Frames

/-!
# Runs on top of other runs

A called function runs on the stack of its caller, with the caller waiting. As long as no frame
takes operands from below its base, that run is the run of the function on a stack of its own:
the same steps, on top of what was there before. Only the end differs, since the last frame
to be left hands its results to the caller instead of ending the run.
-/

open List

namespace TreeMachine.Machine

open Structured
open Linear

/-! ### Steps -/

/-- What a result means on top of other frames, where `w` waits at the node `n`. -/
def resume (n : Node) (B : Operands) (w : Frame) (W : List Frame) (t : List Called) :
    EStateM.Result Fault State Signal → EStateM.Result Fault State Signal
  | .ok (.finished results) s =>
    returned n results { s.atop B (w :: W) t with frame := w, waiting := W }
  | r => atop B (w :: W) t r

section

variable {M : Setup} {p : Program} {n : Node} {B : Operands} {w : Frame} {W : List Frame}
  {t : List Called} {s : State}

lemma returned_atop : returned n results (s.atop B W t) = atop B W t (returned n results s) := by
  have hd := (takes_deliver n results).atop (s := s) (Nat.zero_le _) B W t
  unfold returned
  cases h : deliver n results s with
  | ok x s1 => rw [h] at hd; rw [bind_ok h, bind_ok hd]; rfl
  | error c s1 => rw [h] at hd; rw [bind_error h, bind_error hd]; rfl

lemma returned_ne_finished : returned n results s ≠ .ok (.finished vs) s' := by
  unfold returned
  cases h : deliver n results s with
  | ok x s1 => rw [bind_ok h]; rintro ⟨⟩
  | error c s1 => rw [bind_error h]; rintro ⟨⟩

lemma resume_returned :
    resume n B w W t (returned m results s) = atop B (w :: W) t (returned m results s) := by
  cases h : returned m results s with
  | error c s1 => rfl
  | ok signal s1 =>
    cases signal with
    | running => rfl
    | finished vs => exact absurd h returned_ne_finished

lemma leave_atop (hn : p.code[w.ip.toNat]? = some n)
    (hw : ∀ w ∈ s.waiting, (p.code[w.ip.toNat]?).isSome) :
    leave p results (s.atop B (w :: W) t) = resume n B w W t (leave p results s) := by
  have hcut : (s.atop B (w :: W) t).operands.truncate (s.atop B (w :: W) t).frame.base =
      (s.operands.truncate s.frame.base).atop B := Operands.truncate_atop _ _ _
  cases hwait : s.waiting with
  | nil =>
    have hwait' : (s.atop B (w :: W) t).waiting = w :: W := by simp [State.atop, hwait]
    rw [leave_of_nil hwait, leave_of_cons hwait' hn, hcut]
    rfl
  | cons w' W' =>
    obtain ⟨m, hm⟩ := Option.isSome_iff_exists.1 (hw w' (by rw [hwait]; exact mem_cons_self))
    have hwait' : (s.atop B (w :: W) t).waiting =
        w'.raise B.height :: (W'.map (·.raise B.height) ++ w :: W) := by
      simp [State.atop, hwait]
    rw [leave_of_cons hwait hm, leave_of_cons hwait' (n := m) hm, hcut, resume_returned,
      ← returned_atop]
    rfl

lemma enter_atop (fn : Range) (addr : Int) (args : List Int32) :
    enter M fn addr args (s.atop B W t) = atop B W t (enter M fn addr args s) := by
  by_cases hdeep : M.maxDepth ≤ s.depth
  · have hdeep' : M.maxDepth ≤ (s.atop B W t).depth := hdeep
    simp only [enter, bind, EStateM.bind, get_eq, hdeep, hdeep', if_true]
    rfl
  · have hdeep' : ¬M.maxDepth ≤ (s.atop B W t).depth := hdeep
    simp only [enter, bind, EStateM.bind, get_eq, hdeep, hdeep', if_false]
    cases M.traced <;> rfl

/-- A step on top of other frames does what it does alone, as long as it takes nothing from
below. -/
lemma step_atop (hn : M.program.code[w.ip.toNat]? = some n)
    (hw : ∀ w ∈ s.waiting, (M.program.code[w.ip.toNat]?).isSome)
    (hpops : s.frame.ip < s.frame.fn.stop → ∀ {m}, M.program.code[s.frame.ip.toNat]? = some m →
      pops m ≤ s.operands.height) :
    step M (s.atop B (w :: W) t) = resume n B w W t (step M s) := by
  have hfn : (s.atop B (w :: W) t).frame.fn = s.frame.fn := rfl
  have hip : (s.atop B (w :: W) t).frame.ip = s.frame.ip := rfl
  unfold step
  rw [bind_ok (get_eq _), bind_ok (get_eq _)]
  by_cases hstop : s.frame.ip = s.frame.fn.stop
  · simp only [hfn, hip, hstop, if_true]
    exact leave_atop hn hw
  by_cases hout : s.frame.ip < s.frame.fn.start ∨ (s.frame.fn.stop : Int) < s.frame.ip
  · simp only [hfn, hip, hstop, hout, if_true, if_false]
    rfl
  cases hm : M.program.code[s.frame.ip.toNat]? with
  | none =>
    simp only [hfn, hip, hstop, hout, if_false, hm]
    rfl
  | some m =>
    simp only [hfn, hip, hstop, hout, if_false, hm]
    have hov := (takes_exec M.program m).atop (hpops (by omega) hm) B (w :: W) t
    cases he : exec M.program m s with
    | error c s1 =>
      rw [he] at hov
      rw [bind_error he, bind_error hov]
      rfl
    | ok fl s1 =>
      rw [he] at hov
      have hsame := ((takes_exec M.program m).ok (hpops (by omega) hm) he).1
      have hw1 : ∀ w ∈ s1.waiting, (M.program.code[w.ip.toNat]?).isSome := by
        rw [hsame.waiting]
        exact hw
      rw [bind_ok he, bind_ok hov]
      cases fl with
      | next => rfl
      | leave results => exact leave_atop hn hw1
      | goto addr =>
        show goto _ addr _ = resume n B w W t (goto _ addr s1)
        unfold goto
        split
        · exact leave_atop hn hw1
        · rfl
      | enter fn addr args =>
        show (enter M fn addr args >>= fun _ => pure Signal.running) _ =
          resume n B w W t ((enter M fn addr args >>= fun _ => pure Signal.running) s1)
        have hent := enter_atop (M := M) (s := s1) (B := B) (W := w :: W) (t := t) fn addr args
        cases h : enter M fn addr args s1 with
        | ok x s2 => rw [h] at hent; rw [bind_ok h, bind_ok hent]; rfl
        | error c s2 => rw [h] at hent; rw [bind_error h, bind_error hent]; rfl

end

/-! ### Runs -/

/-- The bases of the active frames, that of the running one first. -/
def bases (s : State) : List Nat :=
  s.frame.base :: s.waiting.map (·.base)

/-- A run that was started on an empty stack at depth `d + 1`. -/
structure Alone (p : Program) (d : Nat) (s : State) : Prop where
  waits : Waits p s
  root : (bases s).getLast? = some 0
  depth : s.depth = d + 1 + s.waiting.length

lemma Alone.moves (h : Alone p d s) (hm : Moves p s s') : Alone p d s' := by
  refine ⟨h.waits.moves hm, ?_, ?_⟩
  · have hroot := h.root
    cases hm with
    | along n os _ _ _ hbase hwait => rw [bases, hbase, hwait]; exact hroot
    | enter n w _ _ _ _ _ hwait _ hw =>
      rw [bases, hwait, map_cons, List.getLast?_cons_cons, hw.2.2]
      exact hroot
    | leave n w os hwait _ hw =>
      rw [bases, hwait, map_cons, List.getLast?_cons_cons] at hroot
      rw [bases, hw.2.2]
      exact hroot
  · have hdepth := h.depth
    cases hm with
    | along n os _ _ _ _ hwait hd => rw [hd, hwait, hdepth]
    | enter n w _ _ _ _ _ hwait hd => rw [hd, hwait, hdepth, length_cons]; omega
    | leave n w os hwait _ _ hd =>
      rw [hwait, length_cons] at hdepth
      omega

lemma Fed.of_atop {p s B W t} (h : Fed p (s.atop B W t)) : Fed p s where
  base_le := by
    have : s.frame.base + B.height ≤ s.operands.height + B.height := h.base_le
    omega
  pops_le := by
    intro hlt n hn
    have : s.frame.base + B.height + pops n ≤ s.operands.height + B.height := h.pops_le hlt hn
    omega

section

variable {M : Setup} {Q : State → Prop} {n : Node} {B : Operands} {w : Frame} {W : List Frame}
  {t : List Called} {d : Nat} (hn : M.program.code[w.ip.toNat]? = some n)
  (hQ : ∀ {s}, W.length < s.waiting.length → Q s)

include hn hQ

/-- How a call runs that is made on top of other frames, by the run of the called function on a
stack of its own. -/
lemma run_atop (fuel : Nat) (halone : Alone M.program d s)
    (hfed : ∀ {s'}, Path M Q (s.atop B (w :: W) t) s' → W.length < s'.waiting.length →
      Fed M.program s') :
    match run M fuel s with
    | none => ∃ s', Steps M Q fuel (s.atop B (w :: W) t) s'
    | some (.ok results, s') => ∃ k u t', Steps M Q k (s.atop B (w :: W) t) u ∧ Q u ∧
        step M u = returned n results
          { world := s'.world, operands := B, frame := w, waiting := W, depth := d, trace := t' }
    | some (.error c, s') => ∃ k u u', Steps M Q k (s.atop B (w :: W) t) u ∧ Q u ∧
        step M u = .error c u' ∧ u'.world = s'.world := by
  induction fuel generalizing s with
  | zero => exact ⟨_, .refl _⟩
  | succ fuel ih =>
    have hlen : W.length < (s.atop B (w :: W) t).waiting.length := by
      simp only [State.atop, length_append, length_cons]
      omega
    have hfed0 : Fed M.program s := Fed.of_atop (hfed (Path.refl _) hlen)
    have hq := hQ hlen
    have hover := step_atop (B := B) (W := W) (t := t) hn halone.waits.isSome fun hlt {m} hm => by
      have := hfed0.pops_le hlt hm
      omega
    have horder := orderly_step (M := M) hfed0 halone.waits.isSome
    rw [run]
    cases hs : step M s with
    | error c s1 =>
      rw [hs] at hover
      exact ⟨0, _, _, .refl _, hq, hover, rfl⟩
    | ok signal s1 =>
      rw [hs] at hover
      cases signal with
      | running =>
        rw [hs] at horder
        have hrun := ih (halone.moves horder) fun hp => hfed (Path.head hq hover hp)
        dsimp only
        revert hrun
        cases run M fuel s1 with
        | none =>
          rintro ⟨s', h⟩
          exact ⟨s', .head hq hover h⟩
        | some r =>
          obtain ⟨outcome, s'⟩ := r
          cases outcome with
          | ok results =>
            rintro ⟨k, u, t', h, hu⟩
            exact ⟨k + 1, u, t', .head hq hover h, hu⟩
          | error c =>
            rintro ⟨k, u, u', h, hu⟩
            exact ⟨k + 1, u, u', .head hq hover h, hu⟩
      | finished results =>
        rw [hs] at horder
        obtain ⟨hwait, hdepth, hitems⟩ := horder
        have hbase : s.frame.base = 0 := by
          have := halone.root
          rw [bases, hwait] at this
          simpa using this
        have hnone : s1.operands.atop B = B := by
          refine Operands.ext_items ?_
          rw [Operands.items_atop, hitems, State.floor, hbase, s.operands.height_eq]
          simp
        refine ⟨0, _, s1.trace ++ t, .refl _, hq, hover.trans ?_⟩
        show returned n results { s1.atop B (w :: W) t with frame := w, waiting := W } = _
        have hd : s1.depth = d := by
          rw [hdepth, halone.depth, hwait]
          simp
        simp only [State.atop, hnone, hd]

end

end TreeMachine.Machine
