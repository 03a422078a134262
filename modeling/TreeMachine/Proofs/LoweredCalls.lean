import TreeMachine.Proofs.LoweredSimulation
import TreeMachine.Proofs.OuterCalls

/-!
# Calls of lowered functions

The machine runs a lowered function as the evaluation of the function it comes from says, and
so, by induction on the budget, do all calls of a lowered unit.
-/

open List

namespace TreeMachine.Flat

open Machine
open Structured
open Linear

/-! ### Functions -/

section

variable {M : Setup} {Q : State → Prop} {cx : Context} {taken : Taken} {ok : String → Prop}
  {s0 : State} {f : Structured.Function} {g : Function} {r : Range} {args : List Int32} {w : World}

/-- The machine runs a lowered function as the function it comes from. -/
lemma lowered_function (S : Stage M Q cx taken ok (· ∈ marks (itemsOf f.body)) s0)
    (hf : Lowered taken ok f g) (hh : Program.Holds M.program g.lift r)
    (hframe : s0.frame = newFrame r r.start args s0.operands.height) (hq : Q s0)
    (hw : SameWorld cx.mode.care w s0.world)
    (hgo : ∀ l w', f.run cx args w ≠ .error (.goto l) w') :
    Lands M Q cx.budget (outside M Q (lowering cx.mode.care))
      (Returns M Q (lowering cx.mode.care) s0) s0 (f.run cx args w) := by
  obtain ⟨ss, k, codes, k', hbody, hcode, hl⟩ := hf.body
  have hruns : RunsStmt M Q cx taken s0 (.seq ss) k codes.flatten k' :=
    .seq (runsNth_of_lowers S hl) hl.length_eq
  have hfn : s0.frame.fn = r := by rw [hframe]; rfl
  have hplaced := hh.placed
  have hstop := hh.stop
  rw [Function.lift, itemsOf, hcode] at hplaced hstop
  have hsite : Site M.program s0 r.start r.start
      (itemsOfAll (codes.flatten.map Stmt.lift) ++
        [.node (.stmt (.seq (codes.flatten.map Stmt.lift)))]) :=
    ⟨hplaced, le_rfl, by rw [hfn, hstop]⟩
  obtain ⟨hs1, hs2⟩ := hsite.append
  have hstand := stand_of_newFrame hframe
  have hlevel : Level M.program s0 s0.operands r.start s0.operands :=
    ⟨suffix_refl _, by rw [hfn]; omega⟩
  rw [← hstand] at hq
  have hstart := hruns (by rw [hfn]; exact hs1) hlevel hq
    ((Tracks.refl { regs := Registers.setAll {} argReg 1 args, world := w }).withWorld hw)
  rw [hstand, ← hbody] at hstart
  obtain ⟨n, s, hsteps, hm⟩ := hstart
  have hbase : s0.frame.base = s0.operands.height := by rw [hframe]; rfl
  unfold Structured.Function.run at hgo ⊢
  cases hr : f.body.eval cx { regs := Registers.setAll {} argReg 1 args, world := w } with
  | ok _ ρ =>
    rw [hr] at hm
    obtain ⟨hq', σ, t, rfl, ht, -⟩ := hm
    have hseq := step_next (M := M) (s := s0) (by rw [hfn]; exact hs2.lo_le) hs2.lt_stop hs2.code
      (exec_seq (ρ := σ) (S := s0.operands) (t := t))
    refine ⟨n + 1, _, hsteps.trans (.head hq' hseq (.refl _)), S.keep hq' hseq, _,
      step_stop ?_, ht.world, rfl, rfl, hbase, suffix_refl _⟩
    rw [hfn, hstop, extent_append]
    simp only [extent]
    omega
  | error e ρ =>
    rw [hr] at hm
    refine ⟨n, s, hsteps, ?_⟩
    cases e with
    | leave vs =>
      obtain ⟨hq', b, σ, S', t, hstep, hw', hsuf⟩ := hm
      exact ⟨hq', _, hstep, hw', rfl, rfl, hbase, hsuf⟩
    | goto l => exact absurd (by rw [hr]) (hgo l ρ.world)
    | fault c => exact hm
    | target c src => exact fun hc => ⟨hm hc, trivial⟩
    | unset => trivial
    | exhausted => exact hm

end

/-! ### Units -/

section

variable {u : Structured.CodeUnit} {l : CodeUnit} {taken : Taken} {ok : String → Prop}

lemma lookup_lift (hl : List.Forall₂ (Lowered taken ok) u.functions l.functions) (name : String) :
    u.lookup name = none ∧ l.lift.lookup name = none ∨
      ∃ f g, u.lookup name = some f ∧ l.lift.lookup name = some g.lift ∧ Lowered taken ok f g := by
  simp only [Structured.CodeUnit.lookup, CodeUnit.lift]
  generalize u.functions = fs at hl ⊢
  generalize l.functions = gs at hl ⊢
  induction hl with
  | nil => exact .inl ⟨rfl, rfl⟩
  | @cons f g fs gs hfg _ ih =>
    have hname : g.lift.name = f.name := hfg.name
    rw [map_cons, List.find?_cons, List.find?_cons, hname]
    by_cases hn : (f.name == name) = true
    · simp only [hn]
      exact .inr ⟨f, g, rfl, rfl, hfg⟩
    · simp only [hn]
      exact ih

variable {M : Setup} {Q : State → Prop} {mode : Mode} {p : Program}
  (hl : List.Forall₂ (Lowered (Std.TreeSet.ofList u.temps) (Callable u)) u.functions l.functions)
  (hp : Program.ofUnit l.lift = .ok M.program)

include hl hp

lemma lowered_calls_of_enter {budget depth : Nat} {caller : String}
    (henter : ∀ {f g r s s1 vs w}, Lowered (Std.TreeSet.ofList u.temps) (Callable u) f g →
      u.lookup f.name = some f → Program.Holds M.program g.lift r → SameWorld mode.care w s.world →
      Q s1 → step M s1 = .ok .running (entered M s r r.start vs) → s.depth = depth →
      depth < M.maxDepth →
      Lands M Q budget (outside M Q (lowering mode.care))
        (Returns M Q (lowering mode.care) (entered M s r r.start vs)) s1
        (u.call mode M.maxDepth budget depth caller f.name vs w)) :
    Calls M Q (lowering mode.care) budget (Callable u) caller depth
      (u.call mode M.maxDepth budget depth caller) where
  routine := by
    intro f w w' vs hf hlab hw
    obtain ⟨hnone, r, hr⟩ := ((callable_lift hl f).2 hf).routine hp hlab
    have hlook : u.lookup f = none := by
      rcases lookup_lift hl f with ⟨h, -⟩ | ⟨_, _, -, h, -⟩
      · exact h
      · rw [hnone] at h
        cases h
    refine ⟨r, hr, ?_⟩
    rw [Structured.CodeUnit.call]
    simp only [hlook, callRoutine, hr]
    obtain ⟨filler, hrun, hsame⟩ := hw.act (Routine.tame_run caller vs r)
    rw [hrun]
    cases hres : r.run caller vs w with
    | ok results w1 =>
      rw [hres] at hsame
      exact ⟨w1, rfl, hsame⟩
    | error c w1 =>
      rw [hres] at hsame
      exact ⟨c, w1, rfl, rfl, hsame⟩
  entry := by
    intro f addr hf hlab
    obtain ⟨g, r, -, -, -, -, hr⟩ := ((callable_lift hl f).2 hf).function hp hlab
    exact ⟨r, hr⟩
  deep := by
    intro f addr vs w hf hlab hdeep
    obtain ⟨g', r, hg, -⟩ := ((callable_lift hl f).2 hf).function hp hlab
    refine ⟨rfl, ?_⟩
    rcases lookup_lift hl f with ⟨-, h⟩ | ⟨f', g, hf', -, -⟩
    · rw [hg] at h
      cases h
    · rw [Structured.CodeUnit.call]
      simp only [hf', hdeep, if_true]
      rfl
  enter := by
    rintro f vs w addr fn s s1 hf hlab hfn hdepth hs hw hq hstep
    obtain ⟨g', r, hg, hgm, hh, rfl, hr⟩ := ((callable_lift hl f).2 hf).function hp hlab
    obtain rfl : fn = r := Except.ok.inj (hfn.symm.trans hr)
    rcases lookup_lift hl f with ⟨-, h⟩ | ⟨f', g, hf', hg', hfg⟩
    · rw [hg] at h
      cases h
    · obtain rfl : g' = g.lift := Option.some.inj (hg.symm.trans hg')
      obtain ⟨-, rfl⟩ := mem_of_lookup hf'
      exact henter hfg hf' hh hw hq hstep hs hdepth

section

variable (hpu : Program.ofUnit u = .ok p) (hconf : ∀ f ∈ u.functions, f.Confined (Callable u))
  (hnamed : "" ∉ u.temps) (hstrict : mode.lax = false) (hreads : mode.care ≠ .reads)
  (hkeep : ∀ {s s'}, Q s → step M s = .ok .running s' → Q s')
  (hsaves : mode.care = .fills → ∀ {s}, Q s →
    ¬SavesUnset M.program (Std.TreeSet.ofList u.temps) s)

include hpu hconf hnamed hstrict hreads hkeep hsaves

/-- The machine runs a function that was entered, if it follows the calls that it makes. -/
lemma lowered_entered (s0 : State) (args : List Int32) (w : World)
    (hfg : Lowered (Std.TreeSet.ofList u.temps) (Callable u) f g) (hf : f ∈ u.functions)
    (hh : Program.Holds M.program g.lift r)
    (hframe : s0.frame = newFrame r r.start args s0.operands.height) (hq : Q s0)
    (hw : SameWorld mode.care w s0.world)
    (hcalls : Calls M Q (lowering mode.care) budget (Callable u) f.name s0.depth
      (u.call mode M.maxDepth budget s0.depth f.name)) :
    Lands M Q budget (outside M Q (lowering mode.care)) (Returns M Q (lowering mode.care) s0) s0
      (f.run { mode, budget, call := u.call mode M.maxDepth budget s0.depth f.name } args w) := by
  refine lowered_function (r := r) ?_ hfg hh hframe hq hw fun l w' =>
    run_ne_goto hpu hconf hstrict hf M.maxDepth budget s0.depth args w w' l
  refine ⟨hstrict, hreads, ?_, hkeep, hsaves, ?_, ?_, grows_call u mode _ _ _ _⟩
  · rwa [Std.TreeSet.mem_ofList, contains_iff_mem]
  · intro l' hl'
    have hname : l' ∈ Program.unitNames l.lift := by
      rw [unitNames_lift hl]
      exact mem_flatMap.2 ⟨f, hf, mem_cons_of_mem _ hl'⟩
    exact (Program.mem_labels_iff_isSome _ _).1 ((Program.mem_labels_iff hp l').2 hname)
  · have hname : s0.frame.fn.name = f.name := by
      rw [hframe]
      exact hh.name.trans hfg.name
    rw [hname]
    exact hcalls

/-- The machine follows the calls of a unit with its lowered form. -/
lemma lowered_calls (budget : Nat) :
    ∀ depth caller, Calls M Q (lowering mode.care) budget (Callable u) caller depth
      (u.call mode M.maxDepth budget depth caller) := by
  induction budget with
  | zero =>
    refine fun depth caller => lowered_calls_of_enter hl hp ?_
    intro f g r s s1 vs w hfg hlook _ _ _ _ _ hdepth
    have hnd : ¬M.maxDepth ≤ depth := by omega
    rw [Structured.CodeUnit.call]
    simp only [hlook, hnd, if_false]
    exact .now (le_refl 0)
  | succ budget ih =>
    refine fun depth caller => lowered_calls_of_enter hl hp ?_
    rintro f g r s s1 vs w hfg hlook hh hw hq hstep rfl hdepth
    have hnd : ¬M.maxDepth ≤ s.depth := by omega
    rw [Structured.CodeUnit.call]
    simp only [hlook, hnd, if_false]
    refine Lands.later (.head hq hstep (.refl _)) ?_
    exact lowered_entered hl hp hpu hconf hnamed hstrict hreads hkeep hsaves _ _ _ hfg
      (mem_of_lookup hlook).1 hh rfl (hkeep hq hstep) hw (ih (s.depth + 1) f.name)

end

end

end TreeMachine.Flat
