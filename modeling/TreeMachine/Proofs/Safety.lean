import TreeMachine.Proofs.Effects
import TreeMachine.Proofs.Frames
import TreeMachine.Proofs.Linking
import TreeMachine.Proofs.Subtrees

/-!
# Compiled code never goes wrong

In every state that a call of a compiled function reaches, the running frame is `Proper`: the
machine follows the evaluation of the code for as many steps as one likes, and hands every
state on the way atop. From that and from what a step does to frames (`orderly_step`) it
follows that frames leave each other's operands alone, that whole expressions and statements
leave what they should, and that only faults occur that a program is to be blamed for.
-/

open List

namespace TreeMachine.Machine

open Structured
open Linear

/-! ### Reachable states -/

section

variable {M : Setup} {Q : State → Prop} {n : Nat} {s s' : State}

lemma Steps.cases_head (h : Steps M Q n s s') :
    n = 0 ∧ s = s' ∨ Q s ∧ ∃ s1, step M s = .ok .running s1 := by
  cases h with
  | refl => exact .inl ⟨rfl, rfl⟩
  | head hq hs _ => exact .inr ⟨hq, _, hs⟩

/-- Where a run ends in a state that does not go on, every state it goes through has the
property that its states have. -/
lemma of_steps_of_end (h : Steps M Q m s t) (hq : Q t) (hend : ∀ t', step M t ≠ .ok .running t')
    (hs : Reaches M s s') : Q s' ∧ (s' = t ∨ ∃ t', step M s' = .ok .running t') := by
  obtain ⟨n, hs⟩ := hs
  rcases Nat.lt_or_ge n m with hlt | hge
  · rcases (hs.of_steps h (le_of_lt hlt)).cases_head with ⟨hz, -⟩ | ⟨hq', t', ht'⟩
    · omega
    · exact ⟨hq', .inr ⟨t', ht'⟩⟩
  · rcases (h.of_steps hs hge).cases_head with ⟨-, rfl⟩ | ⟨-, t', ht'⟩
    · exact ⟨hq, .inl rfl⟩
    · exact absurd ht' (hend t')

end

/-- A state in which a function of a unit starts to run for a caller outside. -/
structure Started (M : Setup) (u : CodeUnit) (s : State) : Prop where
  waiting : s.waiting = []
  frame : ∃ f ∈ u.functions, ∃ r args, Program.Holds M.program f r ∧
    s.frame = newFrame r r.start args s.operands.height

section

variable {u : CodeUnit} {M : Setup} {s0 s : State} (hp : Program.ofUnit u = .ok M.program)
  (hconf : ∀ f ∈ u.functions, f.Confined (Callable u))

include hp hconf

/-- Every state of a run is proper, and its next step fails only as is to be expected, unless the
evaluation of the function comes to a register without a value that must have one. -/
lemma proper_of_entered (hf : f ∈ u.functions) (hh : Program.Holds M.program f r)
    (hwait : s0.waiting = []) (hframe : s0.frame = newFrame r r.start args s0.operands.height)
    (hset : care ≠ .fills → ∀ n w, f.run ⟨⟨care, false⟩, n, u.call ⟨care, false⟩ M.maxDepth n
      s0.depth f.name⟩ args s0.world ≠ .error .unset w) (hs : Reaches M s0 s) :
    Proper M.program care s ∧ ∀ {c s'}, step M s = .error c s' → c.Expected := by
  obtain ⟨n, hn⟩ := hs
  -- the evaluation has more budget than the run has made steps
  let mode : Mode := ⟨care, false⟩
  let cx : Context := ⟨mode, n + 1, u.call mode M.maxDepth (n + 1) s0.depth f.name⟩
  have hcalls := calls_of_unit (Q := Proper M.program care) hp hconf (rfl : mode.lax = false) id
    (n + 1) s0.depth r.name
  have hentry : Entry M (Proper M.program care) cx (Callable u) r s0 :=
    ⟨rfl, id, by rw [hframe]; rfl, by rw [hframe]; rfl, by rw [hh.name] at hcalls ⊢; exact hcalls⟩
  obtain ⟨k, t, hsteps, hm⟩ := follows_function hentry (hconf f hf) hh hframe
  have hend : ∀ {c' t'}, Proper M.program care t → step M t = .error c' t' → c'.Expected →
      Proper M.program care s ∧ ∀ {c s'}, step M s = .error c s' → c.Expected := by
    intro c' t' hq hstep hc'
    have hstuck : ∀ t', step M t ≠ .ok .running t' := by
      intro t'' ht
      rw [hstep] at ht
      cases ht
    obtain ⟨hqs, rfl | ⟨t'', ht''⟩⟩ := of_steps_of_end hsteps hq hstuck ⟨n, hn⟩
    · refine ⟨hqs, fun h => ?_⟩
      rw [hstep] at h
      cases h
      exact hc'
    · refine ⟨hqs, fun h => ?_⟩
      rw [ht''] at h
      cases h
  cases hr : f.run cx args s0.world with
  | ok results w =>
    rw [hr] at hm
    obtain ⟨hq, t', hstep, -, hwait', -⟩ := hm
    have hfin := hstep.trans (leave_of_nil (hwait'.trans hwait))
    have hstuck : ∀ t', step M t ≠ .ok .running t' := by
      intro t' ht
      rw [hfin] at ht
      cases ht
    obtain ⟨hqs, rfl | ⟨t1, ht1⟩⟩ := of_steps_of_end hsteps hq hstuck ⟨n, hn⟩
    · refine ⟨hqs, fun h => ?_⟩
      rw [hfin] at h
      cases h
    · refine ⟨hqs, fun h => ?_⟩
      rw [ht1] at h
      cases h
  | error e w =>
    rw [hr] at hm
    cases e with
    | goto l => exact hm.2.elim
    | leave vs => exact hm.elim
    | fault c =>
      obtain ⟨hq, c', t', hstep, ⟨rfl, hc⟩, -⟩ := hm
      exact hend hq hstep hc
    | target c src =>
      obtain ⟨⟨hq, c', t', hstep, ⟨rfl, hc⟩, -⟩, -⟩ := hm trivial
      exact hend hq hstep hc
    | unset => exact absurd hr (hset hm.1 _ _)
    | exhausted =>
      -- so many steps that the run is a part of them
      have hle : n + 1 ≤ k := hm
      rcases (hn.of_steps hsteps (by omega)).cases_head with ⟨hz, -⟩ | ⟨hq, t', ht'⟩
      · omega
      · refine ⟨hq, fun h => ?_⟩
        rw [ht'] at h
        cases h

/-- Every state of a run is proper, and its next step fails only as is to be expected. -/
lemma proper_of_reaches (h0 : Started M u s0) (hs : Reaches M s0 s) :
    Proper M.program .fills s ∧ ∀ {c s'}, step M s = .error c s' → c.Expected := by
  obtain ⟨f, hf, r, args, hh, hframe⟩ := h0.frame
  exact proper_of_entered hp hconf hf hh h0.waiting hframe (fun hc => absurd rfl hc) hs

end

/-! ### Frames in order -/

/-- Frames are in order in a state and in all that can be reached from it. -/
def InOrder (M : Setup) (s : State) : Prop :=
  ∀ {s'}, Reaches M s s' → Proper M.program .fills s' ∧ Waits M.program s'

lemma Proper.fed (h : Proper p care s) : Fed p s :=
  ⟨h.base_le, h.pops_le⟩

section

variable {M : Setup} {s s' : State}

lemma InOrder.moves (h : InOrder M s) (hs : step M s = .ok .running s') : Moves M.program s s' := by
  obtain ⟨hproper, hwaits⟩ := h (Path.refl s)
  have := orderly_step (M := M) hproper.fed hwaits.isSome
  rwa [hs] at this

lemma InOrder.reaches (h : InOrder M s) (hs : Reaches M s s') : InOrder M s' :=
  fun hs' => h (hs.trans hs')

lemma inOrder_of_proper (hproper : ∀ {s'}, Reaches M s s' → Proper M.program .fills s')
    (hwaits : Waits M.program s) : InOrder M s := by
  rintro s' ⟨n, hn⟩
  refine ⟨hproper ⟨n, hn⟩, ?_⟩
  induction hn with
  | refl => exact hwaits
  | @head n s s1 s2 _ hs _ ih =>
    have hone : Reaches M s s1 := Path.single trivial hs
    have hm := orderly_step (M := M) (hproper (Path.refl s)).fed hwaits.isSome
    rw [hs] at hm
    exact ih (fun hs' => hproper (hone.trans hs')) (hwaits.moves hm)

end

/-! ### How high the stack of a frame is -/

/-- Where an active frame stands, and how many operands there were when it got there. -/
structure Stand where
  fn : Range
  ip : Int
  base : Nat
  height : Int

/-- The height of the stack without what the code of the frame has added to it. -/
def Stand.ground (p : Program) (x : Stand) : Int :=
  x.height - (p.level x.ip.toNat - p.level x.fn.start)

/-- How many operands the call takes at which a frame waits. -/
def popsAt (p : Program) (w : Frame) : Nat :=
  ((p.code[w.ip.toNat]?).map pops).getD 0

/-- Where the active frames stand, the running one first. The operands above a waiting frame's
call begin at the base of the frame it has called. -/
def standsFrom (p : Program) (f : Frame) (h : Int) : List Frame → List Stand
  | [] => [⟨f.fn, f.ip, f.base, h⟩]
  | w :: ws => ⟨f.fn, f.ip, f.base, h⟩ :: standsFrom p w (f.base + popsAt p w) ws

def stands (p : Program) (s : State) : List Stand :=
  standsFrom p s.frame s.operands.height s.waiting

def State.stands (s : State) : Stand :=
  ⟨s.frame.fn, s.frame.ip, s.frame.base, s.operands.height⟩

/-- Where the waiting frames stand below a frame with a base. -/
def standsBelow (p : Program) (base : Nat) : List Frame → List Stand
  | [] => []
  | w :: ws => standsFrom p w (base + popsAt p w) ws

lemma standsFrom_eq (p : Program) (f : Frame) (h : Int) (ws : List Frame) :
    standsFrom p f h ws = ⟨f.fn, f.ip, f.base, h⟩ :: standsBelow p f.base ws := by
  cases ws <;> rfl

lemma stands_eq (p : Program) (s : State) :
    stands p s = s.stands :: standsBelow p s.frame.base s.waiting :=
  standsFrom_eq _ _ _ _

lemma length_standsFrom (p : Program) (f : Frame) (h : Int) (ws : List Frame) :
    (standsFrom p f h ws).length = ws.length + 1 := by
  induction ws generalizing f h with
  | nil => rfl
  | cons w ws ih => simp [standsFrom, ih]

/-- A frame on top of others keeps its ground, except that it may jump to its trap. -/
structure Keeps (p : Program) (x y : Stand) : Prop where
  fn : y.fn = x.fn
  base : y.base = x.base
  ground : y.ground p = x.ground p ∧ (InTrap p x.fn x.ip.toNat → InTrap p x.fn y.ip.toNat) ∨
    ¬InTrap p x.fn x.ip.toNat ∧ InTrap p x.fn y.ip.toNat

lemma Keeps.refl (p : Program) (x : Stand) : Keeps p x x := ⟨rfl, rfl, .inl ⟨rfl, id⟩⟩

lemma Keeps.trans (h : Keeps p x y) (g : Keeps p y z) : Keeps p x z := by
  refine ⟨g.fn.trans h.fn, g.base.trans h.base, ?_⟩
  have hg := g.ground
  rw [h.fn] at hg
  rcases h.ground with ⟨hxy, htxy⟩ | ⟨hx, hy⟩
  · rcases hg with ⟨hyz, htyz⟩ | ⟨hy, hz⟩
    · exact .inl ⟨hyz.trans hxy, htyz ∘ htxy⟩
    · exact .inr ⟨fun hx => hy (htxy hx), hz⟩
  · rcases hg with ⟨-, htyz⟩ | ⟨hy', -⟩
    · exact .inr ⟨hx, htyz hy⟩
    · exact absurd hy hy'

/-- What a step does to the frames of a state. -/
inductive Changes (p : Program) (s s' : State) : Prop where
  | along (rest : List Stand) (before : stands p s = s.stands :: rest)
    (after : stands p s' = s'.stands :: rest) (keeps : Keeps p s.stands s'.stands)
  | enter (after : stands p s' = s'.stands :: stands p s)
  | leave (z : Stand) (rest : List Stand) (before : stands p s = s.stands :: z :: rest)
    (after : stands p s' = s'.stands :: rest) (keeps : Keeps p z s'.stands)

lemma length_floor {s : State} (h : s.frame.base ≤ s.operands.height) :
    s.floor.length = s.frame.base := by
  rw [State.floor, length_drop, ← s.operands.height_eq]
  omega

lemma Proper.ground_eq (h : Proper p care s) (ht : ¬InTrap p s.frame.fn s.frame.ip.toNat) :
    s.stands.ground p = s.frame.base := by
  obtain ⟨junk, hheight, rfl | hin⟩ := h.level
  · simp only [Stand.ground, State.stands]
    omega
  · exact absurd hin ht

lemma changes_of_moves (hm : Moves p s s') (hproper : Proper p .fills s)
    (hproper' : Proper p .fills s') (hwaits : Waits p s) : Changes p s s' := by
  cases hm with
  | along n os hn hip hfn hbase hwait _ hitems hleads =>
    refine .along _ (stands_eq p s) (by rw [stands_eq, hbase, hwait]) ⟨hfn, hbase, ?_⟩
    have hpops := hproper.pops_le hip.2 hn
    have hheight : (s'.operands.height : Int) = s.operands.height - pops n + os.length := by
      rw [s'.operands.height_eq, hitems, length_append, length_drop, ← s.operands.height_eq]
      omega
    show s'.stands.ground p = s.stands.ground p ∧ _ ∨ _
    rcases hleads with ⟨hos, hip'⟩ | ⟨rfl, hjump⟩
    · -- the next address
      have hnat : s'.frame.ip.toNat = s.frame.ip.toNat + 1 := by rw [hip']; omega
      refine .inl ⟨?_, fun h => ?_⟩
      · have hlevel := Program.level_succ hn
        simp only [effect] at hlevel
        simp only [Stand.ground, State.stands, hfn, hnat, hlevel, hheight, hos]
        omega
      · simp only [State.stands, hnat] at h ⊢
        exact h.le (Nat.le_succ _)
    · -- nothing jumps in the trap
      have hnot : ¬InTrap p s.frame.fn s.frame.ip.toNat := by
        rintro ⟨b, -, hb, hcalm⟩
        exact hcalm hb (by omega) hn hjump
      by_cases hin : InTrap p s.frame.fn s'.frame.ip.toNat
      · exact .inr ⟨hnot, hin⟩
      · refine .inl ⟨?_, fun h => absurd h hnot⟩
        rw [hproper.ground_eq hnot, hproper'.ground_eq (by rw [hfn]; exact hin), hbase]
  | enter n w hn hip _ _ hbase hwait _ hw =>
    refine .enter ?_
    have hpops := hproper.pops_le hip.2 hn
    have hat : popsAt p w = pops n := by simp [popsAt, hw.2.1, hn]
    have hheight : ((s'.frame.base : Nat) : Int) + popsAt p w = s.operands.height := by
      rw [hbase, hat]
      omega
    rw [stands_eq p s', hwait]
    show _ :: standsFrom p w _ _ = _
    rw [hheight, standsFrom_eq, hw.1, hw.2.1, hw.2.2, stands_eq p s]
    rfl
  | leave n w os hwait hn hw _ hos hitems =>
    refine .leave ⟨w.fn, w.ip, w.base, s.frame.base + popsAt p w⟩ _
      (by rw [stands_eq p s, hwait]; exact congrArg _ (standsFrom_eq _ _ _ _))
      (by rw [stands_eq, hw.2.2]) ⟨hw.1, hw.2.2, .inl ⟨?_, fun h => ?_⟩⟩
    · obtain ⟨hpos, m, hm, hcall⟩ := hwaits w (by rw [hwait]; exact mem_cons_self)
      obtain rfl : m = n := Option.some.inj (hm.symm.trans hn)
      have hnat : (w.ip + 1).toNat = w.ip.toNat + 1 := by omega
      have hheight : (s'.operands.height : Int) = delivers m + s.frame.base := by
        rw [s'.operands.height_eq, hitems, length_append, hos, length_floor hproper.base_le]
        omega
      have hat : popsAt p w = pops m := by simp [popsAt, hn]
      have hlevel := Program.level_succ hn
      simp only [effect] at hlevel
      simp only [Stand.ground, State.stands, hw.1, hw.2.1, hnat, hlevel, hheight, hat]
      omega
    · simp only [State.stands, hw.2.1] at h ⊢
      exact h.le (by omega)

section

variable {M : Setup} {s s' : State} {n d : Nat}

lemma InOrder.changes (h : InOrder M s) (hs : step M s = .ok .running s') :
    Changes M.program s s' := by
  obtain ⟨hproper, hwaits⟩ := h (Path.refl s)
  exact changes_of_moves (h.moves hs) hproper (h (Path.single trivial hs)).1 hwaits

lemma InOrder.keeps_step (h : InOrder M s) (hs : step M s = .ok .running s')
    (hd : d ≤ s'.waiting.length) (hst : stands M.program s = top ++ x :: rest)
    (hlen : rest.length = d) :
    ∃ top' y, stands M.program s' = top' ++ y :: rest ∧ Keeps M.program x y := by
  cases h.changes hs with
  | along tail hbefore hafter hkeeps =>
    rw [hbefore] at hst
    cases top with
    | nil =>
      obtain ⟨rfl, rfl⟩ := List.cons.inj hst
      exact ⟨[], s'.stands, hafter, hkeeps⟩
    | cons y top =>
      obtain ⟨rfl, rfl⟩ := List.cons.inj hst
      exact ⟨s'.stands :: top, x, hafter, .refl _ x⟩
  | enter hafter => exact ⟨s'.stands :: top, x, by rw [hafter, hst]; rfl, .refl _ x⟩
  | leave z tail hbefore hafter hkeeps =>
    have hlen' : tail.length = s'.waiting.length := by
      have := length_standsFrom M.program s'.frame s'.operands.height s'.waiting
      rw [← stands, hafter] at this
      simpa using this
    rw [hbefore] at hst
    match top with
    | [] =>
      obtain ⟨-, rfl⟩ := List.cons.inj hst
      simp only [length_cons] at hlen
      omega
    | [y] =>
      obtain ⟨-, hst⟩ := List.cons.inj hst
      obtain ⟨rfl, rfl⟩ := List.cons.inj hst
      exact ⟨[], s'.stands, hafter, hkeeps⟩
    | y :: y' :: top =>
      obtain ⟨-, hst⟩ := List.cons.inj hst
      obtain ⟨-, rfl⟩ := List.cons.inj hst
      exact ⟨s'.stands :: top, x, hafter, .refl _ x⟩

lemma InOrder.keeps (h : InOrder M s) (hrun : Steps M (fun s => d ≤ s.waiting.length) n s s')
    (hd : d ≤ s'.waiting.length) (hst : stands M.program s = top ++ x :: rest)
    (hlen : rest.length = d) :
    ∃ top' y, stands M.program s' = top' ++ y :: rest ∧ Keeps M.program x y := by
  induction hrun generalizing top x with
  | refl s => exact ⟨top, x, hst, .refl _ x⟩
  | @head n s s1 s2 _ hs hrest ih =>
    have hd1 : d ≤ s1.waiting.length := by
      cases hrest with
      | refl => exact hd
      | head hq _ _ => exact hq
    obtain ⟨top1, y, hst1, hxy⟩ := h.keeps_step hs hd1 hst hlen
    obtain ⟨top2, z, hst2, hyz⟩ := ih (h.reaches (Path.single trivial hs)) hd hst1
    exact ⟨top2, z, hst2, hxy.trans hyz⟩

end

/-! ### Running through code -/

/-- A run that comes back to the frame it started in, without having left it. -/
def Within (M : Setup) (s s' : State) : Prop :=
  Path M (fun t => s.waiting.length ≤ t.waiting.length) s s' ∧
    s'.waiting.length = s.waiting.length

/-- A run through a number of addresses, in the frame it started in. It comes to the address
after them, or it has just run the last of them. -/
inductive Finishes (M : Setup) (s : State) (len : Nat) (s' : State) : Prop where
  | falls (run : Within M s s') (ip : s'.frame.ip = s.frame.ip + len)
  | jumps (t : State) (run : Within M s t) (ip : t.frame.ip + 1 = s.frame.ip + len)
    (last : step M t = .ok .running s') (stays : s'.waiting.length = s.waiting.length)

/-- A frame has gone from before the trap of its function to the trap. -/
def Trapped (p : Program) (s s' : State) : Prop :=
  ∃ b : Nat, p.labels[Structured.trapOf s.frame.fn.name]? = some b ∧ s.frame.ip < b ∧
    b ≤ s'.frame.ip

section

variable {M : Setup} {s s' : State} {len : Nat}

lemma InOrder.within (h : InOrder M s) (hw : Within M s s') :
    Keeps M.program s.stands s'.stands := by
  obtain ⟨⟨n, hrun⟩, hlen⟩ := hw
  have hbelow := stands_eq M.program s
  have hcount := length_standsFrom M.program s.frame s.operands.height s.waiting
  rw [← stands, hbelow, length_cons] at hcount
  obtain ⟨top, y, hst, hkeeps⟩ := h.keeps hrun (le_of_eq hlen.symm)
    (show _ = [] ++ _ from hbelow) (by omega)
  have hcount' := length_standsFrom M.program s'.frame s'.operands.height s'.waiting
  rw [← stands, hst, length_append, length_cons] at hcount'
  obtain rfl : top = [] := length_eq_zero_iff.1 (by omega)
  rw [stands_eq] at hst
  obtain ⟨rfl, -⟩ := List.cons.inj hst
  exact hkeeps

lemma trapped_of_inTrap (hip : 0 ≤ s.frame.ip) (hip' : 0 ≤ s'.frame.ip)
    (h : ¬InTrap p s.frame.fn s.frame.ip.toNat) (h' : InTrap p s.frame.fn s'.frame.ip.toNat) :
    Trapped p s s' := by
  obtain ⟨b, hb, hle, hcalm⟩ := h'
  have hnot : ¬b ≤ s.frame.ip.toNat := fun hle' => h ⟨b, hb, hle', hcalm⟩
  exact ⟨b, hb, by omega, by omega⟩

lemma height_of_finishes (h : InOrder M s) (hf : Finishes M s len s') :
    (s'.operands.height : Int) = s.operands.height +
        (M.program.level (s.frame.ip.toNat + len) - M.program.level s.frame.ip.toNat) ∨
      Trapped M.program s s' := by
  have hpos : 0 ≤ s.frame.ip := by
    have := (h (Path.refl s)).1.start_le
    omega
  cases hf with
  | falls hrun hip =>
    have hkeeps := h.within hrun
    rcases hkeeps.ground with ⟨hground, -⟩ | ⟨hnot, hin⟩
    · left
      have hfn : s'.frame.fn = s.frame.fn := hkeeps.fn
      have hnat : s'.frame.ip.toNat = s.frame.ip.toNat + len := by rw [hip]; omega
      simp only [Stand.ground, State.stands, hfn, hnat] at hground
      omega
    · exact .inr (trapped_of_inTrap hpos (by rw [hip]; omega) hnot hin)
  | jumps t hrun hip hlast hstays =>
    have hkeeps := h.within hrun
    have ht : InOrder M t := h.reaches hrun.1.reaches
    obtain ⟨hproper, -⟩ := ht (Path.refl t)
    have hreach : Reaches M t s' := Path.single trivial hlast
    have hpos' : 0 ≤ s'.frame.ip := by
      have := (ht hreach).1.start_le
      omega
    rcases hkeeps.ground with ⟨hground, -⟩ | ⟨hnot, hin⟩
    · left
      have hlen := hrun.2
      cases ht.moves hlast with
      | enter n w _ _ _ _ _ hwait => rw [hwait, length_cons] at hstays; omega
      | leave n w os hwait => rw [hwait, length_cons] at hlen; omega
      | along n os hn hrange _ _ _ _ hitems hleads =>
        have hpops := hproper.pops_le hrange.2 hn
        have hos : os.length = pushes n := by
          rcases hleads with ⟨hos, -⟩ | ⟨rfl, ⟨x, rfl⟩ | ⟨x, yes, no, rfl⟩⟩
          · exact hos
          · rfl
          · rfl
        have hheight : (s'.operands.height : Int) = t.operands.height - pops n + pushes n := by
          rw [s'.operands.height_eq, hitems, length_append, length_drop,
            ← t.operands.height_eq, hos]
          omega
        have hlevel := Program.level_succ hn
        have hfn : t.frame.fn = s.frame.fn := hkeeps.fn
        have hnat : t.frame.ip.toNat + 1 = s.frame.ip.toNat + len := by omega
        rw [hnat] at hlevel
        simp only [effect] at hlevel
        simp only [Stand.ground, State.stands, hfn] at hground
        omega
    · -- what is in the trap stays there
      right
      refine trapped_of_inTrap hpos hpos' hnot ?_
      have hfn : t.frame.fn = s.frame.fn := hkeeps.fn
      have hstep : Within M t s' := by
        refine ⟨?_, hstays.trans hrun.2.symm⟩
        exact Path.single le_rfl hlast
      rcases (ht.within hstep).ground with ⟨-, hstay⟩ | ⟨hout, -⟩
      · have := hstay (by simpa only [State.stands, hfn] using hin)
        simpa only [State.stands, hfn] using this
      · exact absurd (by simpa only [State.stands, hfn] using hin) hout

end

/-! ### Faults about operands -/

/-- The operations that complain about an operand and are not library routines. -/
def OwnOperation (operation : String) : Prop :=
  operation ∈ ["binop", "move", "jump", "call"]

lemma not_ownOperation_of_run {r : Routine}
    (h : r.run caller [] w = .error (.operandTag operation got) w') : ¬OwnOperation operation := by
  have hplain : ¬Fault.Plain (.operandTag operation got) := id
  cases r with
  | outOfBounds => cases h
  | eof => exact absurd (((World.plain_read _ _).bind fun _ => .pure _) _ _ _ h) hplain
  | getchar =>
    refine absurd (((World.plain_read _ _).bind fun o => ?_) _ _ _ h) hplain
    cases o <;> exact .pure _
  | readln =>
    exact absurd (((World.plain_read _ _).bind fun _ =>
      (World.plain_newArray _).bind fun _ => .pure _) _ _ _ h) hplain
  | assert | lengthBool | lengthInt | malloc | parseInt | print | println | unparseInt =>
    cases h
    simp [OwnOperation]

/-- Where its operands are there, an action complains about operands for the machine's own
operations only. -/
def Complains {α : Type} (m : Exec α) (k : Nat) : Prop :=
  ∀ s operation got s', k ≤ s.operands.height →
    m s = .error (.operandTag operation got) s' → OwnOperation operation

namespace Complains

variable {α : Type} {m : Exec α} {k l : Nat}

lemma bind (ht : Takes m k fun _ => 0) (hm : Complains m k) (hf : ∀ x, Complains (f x) l) :
    Complains (m >>= f) (k + l) := by
  intro s operation got s' hle h
  obtain hr | ⟨x, s1, hr, h⟩ := bind_eq_error h
  · exact hm _ _ _ _ (by omega) hr
  · exact hf x _ _ _ _ (ht.le_height hle hr).1 h

lemma next {m : Exec Unit} (hm : Complains m k) :
    Complains (m >>= fun _ => Pure.pure Flow.next) k := by
  intro s operation got s' hle h
  exact hm _ _ _ _ hle (error_of_bind_pure h)

lemma pure (x : α) : Complains (Pure.pure x : Exec α) k := by
  rintro s operation got s' - h
  cases h

lemma push (o : Operand) : Complains (push o) k := by
  rintro s operation got s' - h
  cases h

lemma onWorld (ha : Act.Faults Fault.Plain a) : Complains (onWorld a) k := by
  rintro s operation got s' - h
  simp only [Machine.onWorld] at h
  cases hw : a s.world with
  | ok y w => rw [hw] at h; cases h
  | error c w =>
    rw [hw] at h
    cases h
    exact (ha _ _ _ hw).elim

lemma pop (operation : String) : Complains (pop operation) 1 := by
  intro s _ got s' hle h
  obtain ⟨o, -, hpop⟩ := Operands.pop_of_le hle operation
  simp only [Machine.pop, hpop] at h
  cases h

lemma valueOf (o : Operand) : Complains (valueOf o) k := by
  intro s operation got s' _ h
  match o with
  | .value _ | .mem _ _ | .reg _ (some _) | .symbol _ (some _) | .symbol _ none => cases h
  | .reg name none =>
    cases hg : s.frame.regs.get? name <;>
      simp only [Machine.valueOf, fill, EStateM.bind, get_eq, Bind.bind, hg] at h <;> cases h

lemma valuesOf (os : List Operand) : Complains (valuesOf os) 0 := by
  induction os with
  | nil => exact .pure []
  | cons o os ih =>
    exact .bind (l := 0) (takes_valueOf o) (.valueOf o) fun v =>
      .bind (l := 0) (takes_valuesOf os) ih fun vs => .pure _

lemma popValue (operation : String) : Complains (popValue operation) 1 :=
  .bind (l := 0) (takes_pop operation) (.pop operation) .valueOf

lemma popValues (operation : String) (k : Nat) : Complains (popValues operation k) k := by
  refine .bind (l := 0) (takes_popMany operation k) ?_ .valuesOf
  intro s _ got s' hle h
  simp only [popMany, Operands.popMany_of_le hle] at h
  cases h

end Complains

/-- The next node calls a library routine without arguments. -/
def LacksArguments (p : Program) (s : State) : Prop :=
  ∃ n name rest, p.code[s.frame.ip.toNat]? = some n ∧
    ((∃ x, n = .expr (.call x [])) ∨ ∃ returns x, n = .stmt (.call returns x [])) ∧
    s.operands.items = .symbol name none :: rest ∧ (Routine.ofName? name).isSome

lemma returnCount_of_deliver (h : deliver n results s = .error c s') : c.code = "RETURN_COUNT" := by
  unfold deliver at h
  have hset : (modify fun s => { s with
      frame := { s.frame with regs := s.frame.regs.setAll retReg 1 results } } :
      Exec PUnit) s = .ok ⟨⟩ { s with
        frame := { s.frame with regs := s.frame.regs.setAll retReg 1 results } } := rfl
  rw [bind_ok hset] at h
  cases n with
  | expr x => cases h
  | stmt st =>
    cases st with
    | call returns target args =>
      dsimp only at h
      split at h <;> cases h
      rfl
    | _ => cases h

/-- A call that complains about an operand, and not about its target, is a call of a library
routine without arguments. -/
lemma bare_of_call (hle : argc + 1 ≤ s.operands.height)
    (h : call p n operation argc s = .error (.operandTag name got) s') (hown : ¬OwnOperation name) :
    argc = 0 ∧ ∃ f rest, s.operands.items = .symbol f none :: rest ∧
      (Routine.ofName? f).isSome := by
  cases hargs : popValues operation argc s with
  | error c s1 =>
    rw [call, bind_error hargs] at h
    cases h
    exact absurd (Complains.popValues operation argc _ _ _ _ (by omega) hargs) hown
  | ok args s1 =>
    obtain ⟨hle1, -, hitems⟩ := (takes_popValues operation argc).le_height hle hargs
    obtain ⟨target, htop, hpop⟩ := Operands.pop_of_le hle1 operation
    have hpop' : pop operation s1 = .ok target { s1 with operands := s1.operands.below 1 } := by
      simp only [pop, hpop]
    rw [call, bind_ok hargs, bind_ok hpop'] at h
    have henter : ∀ {f addr s}, dispatch.enterAt p f addr s ≠ .error (.operandTag name got) s' := by
      intro f addr s he
      unfold dispatch.enterAt at he
      cases hc : callee p f addr with
      | ok r => rw [hc] at he; cases he
      | error c =>
        obtain rfl := badInstruction_of_callee hc
        rw [hc] at he
        cases he
    have hdeliver : ∀ {results s}, (deliver n results >>= fun _ => pure Flow.next) s ≠
        .error (.operandTag name got) s' := by
      intro results s he
      exact absurd (returnCount_of_deliver (error_of_bind_pure he)) (by simp [Fault.code])
    cases hdisp : dispatch p target args { s1 with operands := s1.operands.below 1 } with
    | ok r s2 =>
      rw [bind_ok hdisp] at h
      cases r with
      | inl results => exact absurd h hdeliver
      | inr r => cases h
    | error c s2 =>
      rw [bind_error hdisp] at h
      cases h
      rcases target with v | ⟨_, _⟩ | ⟨_, _⟩ | ⟨f, _ | addr⟩
      · exact absurd hdisp henter
      · cases hdisp
        exact absurd (by simp [OwnOperation]) hown
      · cases hdisp
        exact absurd (by simp [OwnOperation]) hown
      -- a routine
      · cases hr : Routine.ofName? f with
        | none => simp only [dispatch, hr] at hdisp; cases hdisp
        | some r =>
          have hget : (get : Exec State) { s1 with operands := s1.operands.below 1 } =
              .ok { s1 with operands := s1.operands.below 1 }
                { s1 with operands := s1.operands.below 1 } := rfl
          simp only [dispatch, hr] at hdisp
          rw [bind_ok hget] at hdisp
          cases args with
          | cons v vs =>
            exact absurd (Complains.bind (k := 0) (l := 0) (.onWorld _)
              (.onWorld (Routine.plain_run _ v vs r)) (fun _ => .pure _) _ _ _ _
              (Nat.zero_le _) hdisp) hown
          | nil =>
            have hargc : argc = 0 := (length_of_popValues hargs).symm
            subst hargc
            rw [List.drop_zero] at hitems
            exact ⟨rfl, f, _, hitems ▸ htop, by simp [hr]⟩
      · exact absurd hdisp henter

lemma returnCount_of_leave (h : leave p results s = .error c s') : c.code = "RETURN_COUNT" := by
  cases hw : s.waiting with
  | nil => rw [leave_of_nil hw] at h; cases h
  | cons w W =>
    cases hn : p.code[w.ip.toNat]? with
    | none =>
      simp only [leave, bind, EStateM.bind, modify_eq, get_eq, hw, hn] at h
      cases h
    | some n =>
      rw [leave_of_cons hw hn, returned] at h
      generalize ({ s with
        operands := s.operands.truncate s.frame.base, depth := s.depth - 1
        frame := w, waiting := W } : State) = s1 at h
      obtain hd | ⟨x, s2, -, h⟩ := bind_eq_error h
      · exact returnCount_of_deliver hd
      · cases h

/-- A node that complains about an operand, and not for an operation of the machine, calls a
library routine without arguments. -/
lemma bare_of_exec (hle : pops n ≤ s.operands.height)
    (h : exec p n s = .error (.operandTag name got) s') (hown : ¬OwnOperation name) :
    ((∃ x, n = .expr (.call x [])) ∨ ∃ returns x, n = .stmt (.call returns x [])) ∧
      ∃ f rest, s.operands.items = .symbol f none :: rest ∧ (Routine.ofName? f).isSome := by
  have other : Complains (exec p n) (pops n) → False := fun hc => hown (hc _ _ _ _ hle h)
  match n with
  | .expr (.const _) | .expr (.name _) => exact (other (.next (.push _))).elim
  | .expr (.temp _) => cases h
  | .expr (.mem _) =>
    refine (other (.bind (l := 0) (takes_popValue "mem") (.popValue "mem") fun addr =>
      .bind (l := 0) (.onWorld _) (.onWorld ?_) fun v => .next (.push _))).elim
    exact .inspect Heap.plain_of_load
  | .expr (.binop op x y) =>
    refine (other (.bind (l := 0) (takes_popValues op.text 2) (.popValues op.text 2)
      fun vs => ?_)).elim
    intro s1 operation got s2 _ he
    rcases vs with _ | ⟨l, _ | ⟨r, _ | ⟨v, vs⟩⟩⟩
    · cases he
    · cases he
    · cases hb : Word.binop op l r with
      | ok v => simp only [hb] at he; cases he
      | error c =>
        simp only [hb] at he
        cases he
        cases op with
        | undefined tag => cases hb; simp [OwnOperation]
        | div | mod =>
          simp only [Word.binop] at hb
          split at hb <;> cases hb
        | _ => cases hb
    · cases he
  | .expr (.unop op x) =>
    exact (other (.bind (l := 0) (takes_popValue op.text) (.popValue op.text) fun v =>
      .next (.push _))).elim
  | .expr (.call x args) =>
    obtain ⟨hargs, hroutine⟩ := bare_of_call hle h hown
    obtain rfl := length_eq_zero_iff.1 hargs
    exact ⟨.inl ⟨x, rfl⟩, hroutine⟩
  | .expr (.eseq _ _) | .stmt (.seq _) | .stmt (.label _) | .stmt .skip => cases h
  | .stmt (.move _ _) =>
    refine (other (.bind (l := 1) (takes_popValue "move") (.popValue "move") fun v =>
      .bind (l := 0) (takes_pop "move") (.pop "move") fun target => .next ?_)).elim
    cases target with
    | reg name _ => rintro _ _ _ _ - ⟨⟩
    | mem addr _ => exact .onWorld (World.plain_store addr v)
    | value _ | symbol _ _ =>
      rintro _ _ _ _ - ⟨⟩
      simp [OwnOperation]
  | .stmt (.exp _) =>
    exact (other (.bind (l := 0) (takes_pop "exp") (.pop "exp") fun _ => .pure _)).elim
  | .stmt (.jump _) =>
    refine (other (.bind (l := 0) (takes_pop "jump") (.pop "jump") fun target => ?_)).elim
    cases target with
    | symbol name addr =>
      cases addr with
      | none =>
        rintro _ _ _ _ - ⟨⟩
        simp [OwnOperation]
      | some addr => exact .pure _
    | value _ | mem _ _ | reg _ _ =>
      exact .bind (l := 0) (takes_valueOf _) (.valueOf _) fun v => .pure _
  | .stmt (.cjump _ _ _) =>
    exact (other (.bind (l := 0) (takes_popValue "cjump") (.popValue "cjump")
      fun v => .pure _)).elim
  | .stmt (.ret values) =>
    exact (other (.bind (l := 0) (takes_popValues "return" values.length)
      (.popValues "return" values.length) fun vs => .pure _)).elim
  | .stmt (.call returns x args) =>
    obtain ⟨hargs, hroutine⟩ := bare_of_call hle h hown
    obtain rfl := length_eq_zero_iff.1 hargs
    exact ⟨.inr ⟨returns, x, rfl⟩, hroutine⟩

lemma lacksArguments_of_step {M : Setup} (hfed : Fed M.program s)
    (h : step M s = .error (.operandTag operation got) s')
    (hexp : (Fault.operandTag operation got).Expected) : LacksArguments M.program s := by
  obtain ⟨r, caller, w, w', hrun⟩ := hexp
  have hown := not_ownOperation_of_run hrun
  have hcount : ∀ {results s1}, leave M.program results s1 ≠
      .error (.operandTag operation got) s' := by
    intro results s1 he
    exact absurd (returnCount_of_leave he) (by simp [Fault.code])
  unfold step at h
  rw [bind_ok (get_eq _)] at h
  by_cases hstop : s.frame.ip = s.frame.fn.stop
  · simp only [hstop, if_true] at h
    exact absurd h hcount
  by_cases hout : s.frame.ip < s.frame.fn.start ∨ (s.frame.fn.stop : Int) < s.frame.ip
  · simp only [hstop, hout, if_true, if_false] at h
    cases h
  cases hn : M.program.code[s.frame.ip.toNat]? with
  | none =>
    simp only [hstop, hout, if_false, hn] at h
    cases h
  | some n =>
    simp only [hstop, hout, if_false, hn] at h
    have hle := hfed.pops_le (by omega) hn
    obtain he | ⟨fl, s1, -, h⟩ := bind_eq_error h
    · obtain ⟨hcall, f, rest, hitems, hf⟩ := bare_of_exec (by omega) he hown
      exact ⟨n, f, rest, hn, hcall, hitems, hf⟩
    · cases fl with
      | next => cases h
      | leave results => exact absurd h hcount
      | goto addr =>
        change goto _ addr s1 = _ at h
        unfold goto at h
        split at h
        · exact absurd h hcount
        · cases h
      | enter fn addr args =>
        change (enter M fn addr args >>= fun _ => pure Signal.running) s1 = _ at h
        simp only [enter, bind, EStateM.bind, get_eq] at h
        split at h
        · cases h
        · next hent =>
          split at hent <;> cases hent
          cases h

/-! ### Compiled code -/

/-- A state of a run in which nothing goes wrong. The running frame takes only operands that it
put on the stack itself, and however its next step ends, the operands of the frames below are
still there. Each part of a function that it runs through from here leaves one operand more if
it is an expression and none if it is a statement, unless the frame goes to its trap. And the
next step does not fail because of broken code. -/
structure Safe (M : Setup) (u : CodeUnit) (s : State) : Prop where
  base_le : s.frame.base ≤ s.operands.height
  pops_le : ∀ {n}, s.frame.ip < s.frame.fn.stop → M.program.code[s.frame.ip.toNat]? = some n →
    s.frame.base + pops n ≤ s.operands.height
  floor : (∀ {signal s'}, step M s = .ok signal s' → s.floor <:+ s'.operands.items) ∧
    ∀ {c s'}, step M s = .error c s' → s.floor <:+ s'.operands.items
  finishes : ∀ {f r t a s'}, f ∈ u.functions → Program.Holds M.program f r →
    Occurs (.stmt f.body) r.start t a → s.frame.fn = r → s.frame.ip = a →
    Finishes M s (extent (itemsOfNode t)) s' →
    s'.operands.height = s.operands.height + leaves t ∨ Trapped M.program s s'
  faults : ∀ {c s'}, step M s = .error c s' → (∀ addr, c ≠ .badInstruction addr) ∧
    (∀ name, c ≠ .unresolvedName name) ∧
    ∀ operation got, c = .operandTag operation got → LacksArguments M.program s

lemma safe_of_started (hp : Program.ofUnit u = .ok M.program)
    (hconf : ∀ f ∈ u.functions, f.Confined (Callable u)) (h0 : Started M u s0)
    (hs : Reaches M s0 s) : Safe M u s := by
  have horder0 : InOrder M s0 :=
    inOrder_of_proper (fun hs' => (proper_of_reaches hp hconf h0 hs').1)
      (by rw [Waits, h0.waiting]; simp)
  have horder : InOrder M s := horder0.reaches hs
  obtain ⟨hproper, hexpected⟩ := proper_of_reaches hp hconf h0 hs
  have hstep := orderly_step (M := M) hproper.fed (horder (Path.refl s)).2.isSome
  refine ⟨hproper.base_le, fun hlt hn => hproper.pops_le hlt hn, ⟨?_, ?_⟩, ?_, ?_⟩
  · intro signal s' h
    rw [h] at hstep
    cases signal with
    | finished results =>
      exact hstep.2.2 ▸ suffix_refl _
    | running =>
      cases hstep with
      | along n os hn hip _ _ _ _ hitems =>
        rw [hitems]
        exact (floor_suffix (hproper.pops_le hip.2 hn)).trans (suffix_append _ _)
      | enter n w hn hip _ _ _ _ _ _ hitems =>
        rw [hitems]
        exact floor_suffix (hproper.pops_le hip.2 hn)
      | leave n w os _ _ _ _ _ hitems =>
        rw [hitems]
        exact suffix_append _ _
  · intro c s' h
    rw [h] at hstep
    exact hstep
  · rintro f r t a s' hf hh hoccurs hfn hip hfin
    obtain ⟨hplaced, -, -⟩ := hoccurs.placed hh.placed
    refine (height_of_finishes horder hfin).imp_left fun hheight => ?_
    have hlevel := hplaced.level
    rw [gain_itemsOfNode] at hlevel
    rw [hip, Int.toNat_natCast, hlevel] at hheight
    omega
  · intro c s' h
    have hc := hexpected h
    refine ⟨?_, ?_, ?_⟩
    · rintro addr rfl
      exact hc
    · rintro name rfl
      exact hc
    · rintro operation got rfl
      exact lacksArguments_of_step hproper.fed h hc

/-- A call of a function from outside starts in the function's first state, unless calls are
nested too deep. -/
lemma start_of_mem {u : CodeUnit} {m : Machine} {f : Function} (args : List Int32)
    (hp : Program.ofUnit u = .ok m.setup.program) (hf : f ∈ u.functions) :
    ∃ addr, m.setup.program.labels[f.name]? = some addr ∧
      match m.start f.name addr args with
      | .error c => c = .callDepthExceeded m.depth
      | .ok s0 => Started m.setup u s0 := by
  obtain ⟨r, hr, hh⟩ := Program.holds_of_ofUnit hp hf
  refine ⟨r.start, hh.label, ?_⟩
  have hcallee : callee m.setup.program f.name r.start = .ok r := by simp [callee, hr]
  unfold start
  rw [hcallee]
  show match (if m.setup.maxDepth ≤ m.depth then throw _ else pure _ : Except Fault State) with
    | .error c => c = .callDepthExceeded m.depth
    | .ok s0 => Started m.setup u s0
  by_cases hdeep : m.setup.maxDepth ≤ m.depth
  · rw [if_pos hdeep]
    rfl
  · rw [if_neg hdeep]
    exact ⟨rfl, f, hf, r, args, hh, rfl⟩

/-- Compiled code never goes wrong, in either form. A call of a function of a compiled unit from
outside starts, unless calls are nested too deep already, and every state it reaches is safe. -/
theorem safe_of_reaches {p q : Tree.Program} {u v : CodeUnit} (hp : p.resolve = .ok q)
    (hu : CodeUnit.ofTree q = .ok u)
    (hv : v = u ∨ ∃ l, Flat.CodeUnit.ofStructured u = .ok l ∧ v = l.lift) {m : Machine}
    (hm : Program.ofUnit v = .ok m.setup.program) {f : Function} (hf : f ∈ v.functions)
    (args : List Int32) :
    ∃ addr, m.setup.program.labels[f.name]? = some addr ∧
      match m.start f.name addr args with
      | .error c => c = .callDepthExceeded m.depth
      | .ok s0 => ∀ s, Reaches m.setup s0 s → Safe m.setup v s := by
  have hconf := confined_of_ofTree hp hu
  have hconf' : ∀ f ∈ v.functions, f.Confined (Callable v) := by
    rcases hv with rfl | ⟨l, hl, rfl⟩
    · exact hconf
    · exact Flat.confined_lift hconf hl
  obtain ⟨addr, haddr, hstart⟩ := start_of_mem args hm hf
  refine ⟨addr, haddr, ?_⟩
  cases h0 : m.start f.name addr args with
  | error c => rwa [h0] at hstart
  | ok s0 =>
    rw [h0] at hstart
    exact fun s hs => safe_of_started hm hconf' hstart hs

lemma program_of_ofUnit? (h : ofUnit? (some u) o = .ok m) :
    Program.ofUnit u = .ok m.setup.program := by
  obtain ⟨p, hp, h⟩ := Except.bind_eq_ok h
  obtain ⟨⟨⟩, -, h⟩ := Except.bind_eq_ok h
  cases h
  exact hp

lemma holds_of_entry (hm : ofUnit? (some u) o = .ok m) (hf : f ∈ u.functions)
    (hr : m.setup.program.entry f.name = some r) : Program.Holds m.setup.program f r := by
  obtain ⟨r', hr', hh⟩ := Program.holds_of_ofUnit (program_of_ofUnit? hm) hf
  exact Option.some.inj (hr'.symm.trans hr) ▸ hh

lemma started_of_entry (hm : ofUnit? (some u) o = .ok m) (hf : f ∈ u.functions)
    (hr : m.setup.program.entry f.name = some r) (hs : m.start f.name r.start args = .ok s) :
    Started m.setup u s := by
  obtain ⟨addr, haddr, hstart⟩ := start_of_mem args (program_of_ofUnit? hm) hf
  obtain rfl : addr = r.start :=
    Option.some.inj (haddr.symm.trans (holds_of_entry hm hf hr).label)
  rwa [hs] at hstart

lemma program_of_ofFlat? (h : ofFlat? (some l) o = .ok m) :
    Program.ofUnit l.lift = .ok m.setup.program := by
  obtain ⟨p, hp, h⟩ := Except.bind_eq_ok h
  obtain ⟨⟨⟩, -, h⟩ := Except.bind_eq_ok h
  cases h
  exact hp

/-- A function that stores the result of a call of itself in an array is safe in its flat
form. -/
theorem safe_of_storeDocument :
    ∃ q u l m f s0, Document.load storeDocument = .ok q ∧ CodeUnit.ofTree q = .ok u ∧
      Flat.CodeUnit.ofStructured u = .ok l ∧ ofFlat? (some l) {} = .ok m ∧
      f ∈ l.lift.functions ∧ (∃ addr, m.start f.name addr [8] = .ok s0) ∧
      ∀ s, Reaches m.setup s0 s → Safe m.setup l.lift s := by
  have hrun : ((Document.load storeDocument).toOption.bind fun q =>
    (CodeUnit.ofTree q).toOption.bind fun u =>
    (Flat.CodeUnit.ofStructured u).toOption.bind fun l =>
    (ofFlat? (some l) {}).toOption.bind fun m =>
    l.lift.functions.head?.bind fun f =>
    m.setup.program.labels[f.name]?.bind fun addr =>
    (m.start f.name addr [8]).toOption.map fun _ => ()).isSome = true := by decide +kernel
  obtain ⟨⟨⟩, hrun⟩ := Option.isSome_iff_exists.1 hrun
  simp only [Except.bind_eq_some] at hrun
  obtain ⟨q, hq, u, hu, l, hl, m, hm, hrun⟩ := hrun
  obtain ⟨f, hf, hrun⟩ := Option.bind_eq_some_iff.1 hrun
  obtain ⟨addr, haddr, hrun⟩ := Option.bind_eq_some_iff.1 hrun
  obtain ⟨s0, hs0, -⟩ := Option.map_eq_some_iff.1 hrun
  replace hs0 := Except.eq_ok_of_toOption hs0
  have hfmem : f ∈ l.lift.functions := List.mem_of_mem_head? hf
  obtain ⟨⟨p, hp⟩, -⟩ := Document.of_load hq
  refine ⟨q, u, l, m, f, s0, hq, hu, hl, hm, hfmem, ⟨addr, hs0⟩, ?_⟩
  obtain ⟨addr', haddr', hsafe⟩ :=
    safe_of_reaches hp hu (.inr ⟨l, hl, rfl⟩) (program_of_ofFlat? hm) hfmem [8]
  obtain rfl : addr = addr' := Option.some.inj (haddr.symm.trans haddr')
  rwa [hs0] at hsafe

end TreeMachine.Machine
