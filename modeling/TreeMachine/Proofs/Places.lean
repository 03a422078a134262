import TreeMachine.Proofs.Parts
import TreeMachine.Proofs.Safety

/-!
# Runs through parts of a function

A part of a function's code is run wherever it stands: the machine follows its evaluation
from every state whose running frame is before it, with as many operands on the stack as the
code before it leaves. Every state that a run reaches has them.
-/

namespace TreeMachine.Linear

lemma Occurs.level_le {p t v a b} (h : Occurs t a v b) (hp : Placed p a (itemsOfNode t)) :
    p.level a ≤ p.level b := by
  induction h with
  | self => exact Int.le_refl _
  | @part t u v a b before after hchildren _ ih =>
    rw [itemsOfNode_part hchildren] at hp
    have hgain : ∀ ns : List Structured.Node, 0 ≤ gain (nodes (ns.flatMap itemsOfNode)) := by
      intro ns
      induction ns with
      | nil => exact Int.le_refl _
      | cons n ns ihn =>
        rw [List.flatMap_cons, nodes_append, gain_append, gain_itemsOfNode]
        omega
    have hbefore := hp.append.1.level
    have hrest := ih hp.append.2.append.1
    have := hgain before
    omega

end TreeMachine.Linear

namespace TreeMachine.Machine

open Structured
open Linear

/-- What the code of the running frame acts on. -/
def State.env (s : State) : Env :=
  { regs := s.frame.regs, world := s.world }

/-- How code is evaluated that the running frame runs. -/
def State.context (s : State) (u : CodeUnit) (M : Setup) (fuel : Nat) : Context where
  mode := ⟨.fills, false⟩
  budget := fuel
  call := u.call ⟨.fills, false⟩ M.maxDepth fuel s.depth s.frame.fn.name

lemma State.stand_env {s : State} {a : Nat} (h : s.frame.ip = a) :
    s.stand a s.env s.operands s.trace = s := by
  obtain ⟨world, operands, ⟨fn, ip, regs, base⟩, waiting, depth, trace⟩ := s
  obtain rfl : ip = a := h
  rfl

/-- The running frame is before a part of its function that is not the whole, with the operands
that the code before the part leaves. -/
structure Before (M : Setup) (u : CodeUnit) (s : State) (v : Node) (a : Nat) : Prop where
  part : ∃ g ∈ u.functions, Program.Holds M.program g s.frame.fn ∧
    Occurs (.stmt g.body) s.frame.fn.start v a ∧ v ≠ .stmt g.body
  ip : s.frame.ip = a
  operands : M.program.level a - M.program.level s.frame.fn.start ≤ s.operands.height

def FailsFrom (M : Setup) (s : State) (c : Fault) : Prop :=
  ∃ s1 s2, Reaches M s s1 ∧ step M s1 = .error c s2

lemma FailsFrom.of_lands {α : Type} {M : Setup} {n : Nat} {care : Care} {s s0 : State}
    {esc scope : List String} {S : Operands} {fin : α → Env → State → Prop} {c : Fault} {ρ : Env}
    {r : EStateM.Result Stop Env α}
    (h : Lands M (fun _ => True) n (leaving M (fun _ => True) care s0 esc scope S) fin s r)
    (hr : r = .error (.fault c) ρ ∨ ∃ src, r = .error (.target c src) ρ) : FailsFrom M s c := by
  obtain ⟨k, s', hrun, hm⟩ := h
  rcases hr with rfl | ⟨src, rfl⟩
  · obtain ⟨-, c', s'', hstep, ⟨rfl, -⟩, -⟩ := hm
    exact ⟨s', s'', ⟨k, hrun⟩, hstep⟩
  · obtain ⟨⟨-, c', s'', hstep, ⟨rfl, -⟩, -⟩, -⟩ := hm
    exact ⟨s', s'', ⟨k, hrun⟩, hstep⟩

section

variable {M : Setup} {u : CodeUnit} {s : State} {a : Nat}

/-- The operands that the code before a part has left, taken away. -/
def State.cleared (s : State) (p : Program) (a : Nat) : State :=
  { s with operands := s.operands.below (p.level a - p.level s.frame.fn.start).toNat }

/-- Where a part of a function stands, and that it is confined. -/
structure Stands (M : Setup) (u : CodeUnit) (s : State) (v : Node) (a : Nat) : Prop where
  site : Site M.program (s.cleared M.program a) a a (itemsOfNode v)
  start_le : s.frame.fn.start ≤ a
  level : Level M.program (s.cleared M.program a) (s.cleared M.program a).operands a s.operands
  confined : ∃ esc, (∀ l ∈ esc, l = trapOf s.frame.fn.name ∧ (M.program.labels[l]?).isSome) ∧
    v.Confined (Callable u) esc fun l => (M.program.labels[l]?).isSome

lemma Node.Confined.imp {ok lab lab' esc} {v : Node} (h : v.Confined ok esc lab)
    (hlab : ∀ l, lab l → lab' l) : v.Confined ok esc lab' := by
  cases v with
  | stmt st =>
    obtain ⟨scope, hscope, h⟩ := h
    exact ⟨scope, fun l hl => hlab l (hscope l hl), h⟩
  | expr x =>
    cases x with
    | name l => trivial
    | _ => exact h

lemma Before.stands {v : Node} (h : Before M u s v a)
    (hconf : ∀ f ∈ u.functions, f.Confined (Callable u)) : Stands M u s v a := by
  obtain ⟨⟨g, hg, hholds, hocc, hne⟩, hip, hops⟩ := h
  obtain ⟨hplaced, hle, hend⟩ := hocc.placed hholds.placed
  have hlevel := hocc.level_le hholds.placed
  have hsome : ∀ l ∈ marks (itemsOf g.body), (M.program.labels[l]?).isSome :=
    fun l hl => hholds.placed.isSome_of_mem_marks hl
  have hstop : s.frame.fn.stop = s.frame.fn.start + extent (itemsOfNode (.stmt g.body)) :=
    hholds.stop
  refine ⟨⟨hplaced, le_rfl, ?_⟩, hle, ⟨List.drop_suffix _ _, ?_⟩, ?_⟩
  · show a + extent (itemsOfNode v) ≤ s.frame.fn.stop
    omega
  · show (s.operands.height : Int) =
      (s.operands.height - (M.program.level a - M.program.level s.frame.fn.start).toNat : Nat) +
        (M.program.level a - M.program.level s.frame.fn.start)
    omega
  · obtain ⟨esc, hesc, hv⟩ := (hconf g hg).part hocc hne
    refine ⟨esc, fun l hl => ?_, Node.Confined.imp hv hsome⟩
    rw [hholds.name]
    exact ⟨(hesc l hl).1, hsome l (hesc l hl).2⟩

variable (hp : Program.ofUnit u = .ok M.program)
  (hconf : ∀ f ∈ u.functions, f.Confined (Callable u))

include hp hconf

lemma scene_of_unit (s : State) (fuel : Nat) {lo : Nat} (hlo : s.frame.fn.start ≤ lo) :
    Scene M (fun _ => True) (s.context u M fuel) (Callable u) (s.cleared M.program a)
      (s.cleared M.program a).operands lo :=
  ⟨rfl, hlo, List.suffix_refl _, fun _ _ _ _ _ _ => trivial,
    calls_of_unit hp hconf rfl (fun _ => trivial) fuel s.depth s.frame.fn.name⟩

/-- The machine follows the evaluation of a statement that the running frame is before. -/
lemma Before.follows_stmt {st : Stmt} (h : Before M u s (.stmt st) a) (fuel : Nat) :
    ∃ esc scope, (∀ l ∈ esc, l = trapOf s.frame.fn.name) ∧ Lands M (fun _ => True) fuel
        (leaving M (fun _ => True) .fills (s.cleared M.program a) esc scope s.operands)
        (Passed s (a + extent (itemsOf st)) s.operands) s
        (st.eval (s.context u M fuel) s.env) := by
  obtain ⟨hsite, hlo, hlevel, esc, hesc, scope, hscope, hst⟩ := h.stands hconf
  refine ⟨esc, scope, fun l hl => (hesc l hl).1, ?_⟩
  have sc := scene_of_unit (a := a) hp hconf s fuel hlo
  have hrun := Machine.follows_stmt sc (fun l hl => (hesc l hl).2) st hst hscope (ρ := s.env)
    (t := s.trace) hsite hlevel
  have hself : (s.cleared M.program a).stand a s.env s.operands s.trace = s := State.stand_env h.ip
  rw [hself] at hrun
  exact hrun

/-- The machine follows the evaluation of an expression that the running frame is before. -/
lemma Before.follows_expr {x : Expr} (h : Before M u s (.expr x) a) (hx : ∀ l, x ≠ .name l)
    (fuel : Nat) :
    ∃ esc, (∀ l ∈ esc, l = trapOf s.frame.fn.name) ∧ Lands M (fun _ => True) fuel
        (leaving M (fun _ => True) .fills (s.cleared M.program a) esc [] s.operands)
        (Pushed s (a + extent (itemsOfExpr x)) s.operands) s
        (x.eval (s.context u M fuel) s.env) := by
  obtain ⟨hsite, hlo, hlevel, esc, hesc, hconfined⟩ := h.stands hconf
  refine ⟨esc, fun l hl => (hesc l hl).1, ?_⟩
  have hx' : x.Confined (Callable u) esc := by
    cases x with
    | name l => exact absurd rfl (hx l)
    | _ => exact hconfined
  have sc := scene_of_unit (a := a) hp hconf s fuel hlo
  have hrun := Machine.follows_expr sc (fun l hl => (hesc l hl).2) x hx' (ρ := s.env)
    (t := s.trace) hsite hlevel
  have hself : (s.cleared M.program a).stand a s.env s.operands s.trace = s := State.stand_env h.ip
  rw [hself] at hrun
  exact hrun

lemma Before.passes {st : Stmt} {fuel : Nat} {ρ : Env} (h : Before M u s (.stmt st) a)
    (he : st.eval (s.context u M fuel) s.env = .ok () ρ) :
    ∃ t, Reaches M s (s.stand (a + extent (itemsOf st)) ρ s.operands t) := by
  obtain ⟨esc, scope, -, k, s', hrun, hm⟩ := h.follows_stmt hp hconf fuel
  rw [he] at hm
  obtain ⟨t, rfl⟩ := hm
  exact ⟨t, k, hrun⟩

lemma Before.pushes {x fuel o ρ} (h : Before M u s (.expr x) a) (hx : ∀ l, x ≠ .name l)
    (he : x.eval (s.context u M fuel) s.env = .ok o ρ) :
    ∃ t, Reaches M s (s.stand (a + extent (itemsOfExpr x)) ρ (s.operands.push o) t) := by
  obtain ⟨esc, -, k, s', hrun, hm⟩ := h.follows_expr hp hconf hx fuel
  rw [he] at hm
  obtain ⟨t, rfl⟩ := hm
  exact ⟨t, k, hrun⟩

lemma Before.faults {st fuel c ρ} (h : Before M u s (.stmt st) a)
    (he : st.eval (s.context u M fuel) s.env = .error (.fault c) ρ ∨
      ∃ src, st.eval (s.context u M fuel) s.env = .error (.target c src) ρ) : FailsFrom M s c := by
  obtain ⟨esc, scope, -, hlands⟩ := h.follows_stmt hp hconf fuel
  exact .of_lands hlands he

/-- A run that comes to a part of a function is before it. -/
lemma before_of_reaches {s0 v g} (h0 : Started M u s0) (hs : Reaches M s0 s)
    (hg : g ∈ u.functions) (hholds : Program.Holds M.program g s.frame.fn)
    (hocc : Occurs (.stmt g.body) s.frame.fn.start v a) (hv : v ≠ .stmt g.body)
    (hip : s.frame.ip = a) : Before M u s v a := by
  refine ⟨⟨g, hg, hholds, hocc, hv⟩, hip, ?_⟩
  obtain ⟨hproper, -⟩ := proper_of_reaches hp hconf h0 hs
  obtain ⟨junk, hheight, -⟩ := hproper.level
  rw [hip, Int.toNat_natCast] at hheight
  omega

end

end TreeMachine.Machine
