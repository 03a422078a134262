import TreeMachine.Proofs.Courses
import TreeMachine.Proofs.Effects

/-!
# The heap only grows

Whatever code does, no word of the heap is taken back, and the heap does not pass its limit.
So an address that could be read once can be read ever after.
-/

namespace TreeMachine.Structured

def Grows (ρ ρ' : Env) : Prop :=
  ρ.world.heap.Grows ρ'.world.heap

def CallsGrow (call : String → List Int32 → EStateM Stop World (List Int32)) : Prop :=
  ∀ f vs (w : World), w.heap.Grows (endOf (call f vs w)).heap

section

variable {α : Type} {cx : Context}

lemma grows_onWorld {a : Act α} (ha : ∀ w : World, w.heap.Grows (endOf (a w)).heap) :
    Eval.Along Grows (Eval.onWorld a) := by
  intro ρ
  have h := ha ρ.world
  unfold Eval.onWorld
  cases hr : a ρ.world <;> rw [hr] at h <;> exact h

lemma grows_setRegister (name : String) (v : Int32) : Eval.Along Grows (Eval.setRegister name v) :=
  fun _ => .refl _

lemma grows_fill (name : String) : Eval.Along Grows (Eval.fill name) := by
  intro ρ
  rcases fill_eq name ρ with ⟨v, hv⟩ | ⟨v, f, -, hv⟩
  · rw [hv]
    exact .refl ρ.world.heap
  · rw [hv]
    exact .refl ρ.world.heap

lemma course_grows (hcall : CallsGrow cx.call) : Course Grows cx where
  refl _ := .refl _
  trans := .trans
  fill := grows_fill
  store a v := grows_onWorld (World.tame_store a v).grows
  call f vs := by
    intro ρ
    have h := hcall f vs ρ.world
    unfold Eval.callBy
    cases hr : cx.call f vs ρ.world <;> rw [hr] at h <;> exact h

/-- The evaluation of a statement takes no memory back. -/
lemma grows_stmt (hcall : CallsGrow cx.call) (s : Stmt) : Eval.Along Grows (s.eval cx) :=
  along_stmt (course_grows hcall) s fun r _ => grows_setRegister r

/-- The evaluation of an expression takes no memory back. -/
lemma grows_expr (hcall : CallsGrow cx.call) (x : Expr) : Eval.Along Grows (x.eval cx) :=
  along_expr (course_grows hcall) x fun r _ => grows_setRegister r

end

/-! ### Calls -/

/-- No call takes memory back. -/
lemma grows_call (u : CodeUnit) (mode : Mode) (maxDepth budget depth : Nat) (caller : String) :
    CallsGrow (u.call mode maxDepth budget depth caller) := by
  induction budget generalizing depth caller with
  | zero =>
    intro f vs w
    rw [CodeUnit.call]
    cases u.lookup f with
    | none => exact grows_callRoutine caller f vs w
    | some g => by_cases hd : maxDepth ≤ depth <;> simp only [hd, if_true, if_false] <;>
        exact .refl _
  | succ budget ih =>
    intro f vs w
    rw [CodeUnit.call]
    cases u.lookup f with
    | none => exact grows_callRoutine caller f vs w
    | some g =>
      by_cases hd : maxDepth ≤ depth
      · simp only [hd, if_true]
        exact .refl _
      · simp only [hd, if_false]
        exact grows_run (ih (depth + 1) g.name) vs w
where
  grows_callRoutine (caller : String) : CallsGrow (callRoutine caller) := by
    intro f vs w
    unfold callRoutine
    cases Routine.ofName? f with
    | none => exact .refl _
    | some r =>
      have h := (Routine.tame_run caller vs r).grows w
      simp only
      cases hr : r.run caller vs w <;> rw [hr] at h <;> exact h
  grows_run {cx : Context} {g : Function} (hcall : CallsGrow cx.call) (vs : List Int32)
      (w : World) : w.heap.Grows (endOf (g.run cx vs w)).heap := by
    have h := grows_stmt hcall g.body
      { regs := Registers.setAll {} argReg 1 vs, world := w }
    unfold Function.run
    split <;> next hr => rw [hr] at h; exact h

end TreeMachine.Structured

namespace TreeMachine.Machine

open Linear
open Structured

/-! ### Steps of the machine -/

lemma permits_grows : Permits fun w w' => w.heap.Grows w'.heap where
  refl _ := .refl _
  trans := .trans
  heap _ _ h := h
  filler _ _ := .refl _

lemma grows_step (M : Setup) (s : State) : Ends (OnWorlds fun w w' => w.heap.Grows w'.heap)
    (fun _ => True) s (step M s) :=
  permits_grows.step fun n _ => Abides.exec permits_grows.allows
    (fun caller args r => (Routine.tame_run caller args r).grows) M.program n s

/-- No run makes the heap smaller. -/
lemma grows_of_reaches (h : Reaches M s s') : s.world.heap.Grows s'.world.heap := by
  obtain ⟨n, h⟩ := h
  induction h with
  | refl s => exact .refl _
  | @head n s s1 s2 _ hs _ ih =>
    have hstep := grows_step M s
    rw [hs] at hstep
    exact hstep.trans ih

end TreeMachine.Machine
