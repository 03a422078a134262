import TreeMachine.Proofs.Evaluation
import TreeMachine.Proofs.Worlds

/-!
# What evaluations keep

Many facts about evaluations say that what was so before is so afterwards, whichever way the
evaluation ends: the heap is no smaller, a register has the value it had. Such a fact is a
relation between environments. It holds of all code as soon as it holds of the few things that
code does to an environment: filling a register, storing a word, calling, and setting the
registers that the code moves values to.
-/

open List

namespace TreeMachine.Structured

/-- An evaluation ends, one way or the other, in an environment that is related to the one it
started in. -/
def Eval.Along {α : Type} (R : Env → Env → Prop) (m : Eval α) : Prop :=
  ∀ ρ, R ρ (endOf (m ρ))

mutual

/-- The registers that a statement moves values to. -/
def Stmt.moved : Stmt → List String
  | .skip => []
  | .label _ => []
  | .seq ss => Stmt.movedAll ss
  | .move (.temp r) src => r :: src.moved
  | .move target src => target.moved ++ src.moved
  | .exp x => x.moved
  | .jump _ => []
  | .cjump cond _ _ => cond.moved
  | .ret values => Expr.movedAll values
  | .call _ _ args => Expr.movedAll args

/-- The registers that an expression moves values to. -/
def Expr.moved : Expr → List String
  | .const _ => []
  | .temp _ => []
  | .name _ => []
  | .mem addr => addr.moved
  | .binop _ left right => left.moved ++ right.moved
  | .unop _ x => x.moved
  | .call _ args => Expr.movedAll args
  | .eseq s x => s.moved ++ x.moved

def Stmt.movedAll : List Stmt → List String
  | [] => []
  | s :: ss => s.moved ++ Stmt.movedAll ss

def Expr.movedAll : List Expr → List String
  | [] => []
  | x :: xs => x.moved ++ Expr.movedAll xs

end

lemma Stmt.movedAll_append (ss ss' : List Stmt) :
    Stmt.movedAll (ss ++ ss') = Stmt.movedAll ss ++ Stmt.movedAll ss' := by
  induction ss with
  | nil => rfl
  | cons s ss ih => simp [Stmt.movedAll, ih]

lemma take_of_word (h : o.word? = some v) (ρ : Env) : Eval.take care o ρ = .ok v ρ := by
  cases o with
  | value w => cases h; rfl
  | mem a w => cases h; rfl
  | reg name w => cases h; rfl
  | symbol l addr => cases addr <;> (cases h; rfl)

lemma fill_of_some (h : ρ.regs.get? name = some v) : Eval.fill name ρ = .ok v ρ := by
  unfold Eval.fill
  rw [bind_ok (get_eq _), h]
  rfl

lemma fill_of_none (h : ρ.regs.get? name = none) (hdraw : World.drawFiller ρ.world = .ok v w) :
    Eval.fill name ρ = .ok v { regs := ρ.regs.set name v, world := w } := by
  have hfill : Eval.onWorld World.drawFiller ρ = .ok v { ρ with world := w } := by
    unfold Eval.onWorld
    rw [hdraw]
  unfold Eval.fill
  rw [bind_ok (get_eq _), h]
  simp only
  rw [bind_ok hfill]
  rfl

lemma fill_eq (name : String) (ρ : Env) : (∃ v, Eval.fill name ρ = .ok v ρ) ∨
      ∃ v f, ρ.regs.get? name = none ∧
        Eval.fill name ρ = .ok v { regs := ρ.regs.set name v, world := ρ.world.refill f } := by
  cases hn : ρ.regs.get? name with
  | some v => exact .inl ⟨v, fill_of_some hn⟩
  | none => exact .inr ⟨_, _, rfl, fill_of_none hn (World.drawFiller_eq ρ.world)⟩

/-- A relation that is kept by what code does, apart from moves to registers. -/
structure Course (R : Env → Env → Prop) (cx : Context) : Prop where
  refl : ∀ ρ, R ρ ρ
  trans : ∀ {ρ ρ1 ρ2}, R ρ ρ1 → R ρ1 ρ2 → R ρ ρ2
  fill : ∀ name, Eval.Along R (Eval.fill name)
  store : ∀ a v, Eval.Along R (Eval.onWorld (World.store a v))
  call : ∀ f vs, Eval.Along R (Eval.callBy cx.call f vs)

namespace Course

open Eval

variable {α : Type} {R : Env → Env → Prop} {cx : Context} (C : Course R cx)

include C

lemma pure (x : α) : Along R (Pure.pure x) := fun ρ => C.refl ρ

lemma throw (stop : Stop) : Along R (throw stop : Eval α) := fun ρ => C.refl ρ

lemma bind (hm : Along R m) (hf : ∀ x, Along R (f x)) : Along R (m >>= f) := by
  intro ρ
  have hmρ := hm ρ
  cases hr : m ρ with
  | ok x ρ1 =>
    rw [hr] at hmρ
    rw [bind_ok hr]
    exact C.trans hmρ (hf x ρ1)
  | error stop ρ1 =>
    rw [hr] at hmρ
    rw [bind_error hr]
    exact hmρ

lemma readRegister (care : Care) (name : String) : Along R (Eval.readRegister care name) := by
  intro ρ
  unfold Eval.readRegister
  cases ρ.regs.get? name with
  | some v => exact C.refl ρ
  | none =>
    by_cases hc : care = .reads
    · simp only [hc, if_true]
      exact C.refl ρ
    · simp only [hc, if_false]
      exact C.refl ρ

lemma take (care : Care) (o : Operand) : Along R (Eval.take care o) := by
  match o with
  | .value _ | .mem _ _ | .reg _ (some _) | .symbol _ (some _) | .symbol _ none =>
    exact C.pure _
  | .reg name none =>
    unfold Eval.take
    by_cases hc : care = .fills
    · simp only [hc, if_true]
      exact C.fill name
    · simp only [hc, if_false]
      exact C.throw _

lemma takeAll (care : Care) (os : List Operand) : Along R (Eval.takeAll care os) := by
  induction os with
  | nil => exact C.pure _
  | cons o os ih => exact C.bind (C.take care o) fun _ => C.bind ih fun _ => C.pure _

lemma load (addr : Int32) : Along R (Eval.load addr) := by
  intro ρ
  simp only [Eval.load, onWorld, World.inspect]
  cases ρ.world.heap.load addr <;> exact C.refl ρ

lemma checkTarget (src : Expr) (addr : Int32) : Along R (Eval.checkTarget src addr) := by
  intro ρ
  unfold Eval.checkTarget
  cases ρ.world.heap.load addr <;> exact C.refl ρ

omit C in
lemma seek (hm : Along R m) : Along R (Eval.seek m) := by
  intro ρ
  have h := hm ρ
  unfold Eval.seek
  cases hr : m ρ with
  | ok x ρ1 =>
    rw [hr] at h
    exact h
  | error stop ρ1 =>
    rw [hr] at h
    cases stop <;> exact h

lemma loop (hbody : ∀ start, Along R (body start)) (n : Nat) (start : Option String) :
    Along R (Eval.loop labels body n start) := by
  have hthrow : ∀ stop, Along R (MonadExceptOf.throw stop : Eval Unit) := C.throw
  induction n generalizing start with
  | zero =>
    unfold Eval.loop
    refine C.bind (hbody start) fun o => ?_
    cases o with
    | none => exact C.pure _
    | some l =>
      by_cases hl : l ∈ labels
      · simp only [hl, if_true]
        exact hthrow _
      · simp only [hl, if_false]
        exact hthrow _
  | succ n ih =>
    unfold Eval.loop
    refine C.bind (hbody start) fun o => ?_
    cases o with
    | none => exact C.pure _
    | some l =>
      by_cases hl : l ∈ labels
      · simp only [hl, if_true]
        exact ih (some l)
      · simp only [hl, if_false]
        exact hthrow _

lemma moveMem (hm : Along R m) (hm' : Along R m') (mode : Mode) (src : Expr) :
    Along R (do
      let a ← Eval.take mode.care (← m)
      if !mode.lax then Eval.checkTarget src a
      let v ← Eval.take mode.care (← m')
      if mode.lax then let _ ← Eval.load a
      onWorld (World.store a v) : Eval Unit) := by
  have hsource : ∀ a, Along R (do
      let v ← Eval.take mode.care (← m')
      if mode.lax then let _ ← Eval.load a
      onWorld (World.store a v) : Eval Unit) := by
    intro a
    refine C.bind hm' fun _ => C.bind (C.take _ _) fun v => ?_
    cases mode.lax with
    | true => exact C.bind (C.load a) fun _ => C.store a v
    | false => exact C.store a v
  refine C.bind hm fun _ => C.bind (C.take _ _) fun a => ?_
  cases hlax : mode.lax with
  | true => simpa only [hlax, Bool.not_true, Bool.false_eq_true, if_false] using hsource a
  | false =>
    refine C.bind (C.checkTarget src a) fun _ => ?_
    simpa only [hlax] using hsource a

end Course

section

open Eval

variable {R : Env → Env → Prop} {cx : Context}

mutual

/-- The evaluation of a statement stays within the relation. -/
lemma along_stmt (C : Course R cx) : (s : Stmt) →
    (∀ r ∈ s.moved, ∀ v, Along R (setRegister r v)) → Along R (s.eval cx)
  | .skip, _ => C.pure _
  | .label _, _ => C.pure _
  | .seq ss, h => by
    rw [Stmt.eval]
    exact C.loop (along_seq C ss (by simpa only [Stmt.moved] using h)) cx.budget none
  | .move target src, h => by
    cases target with
    | mem addr =>
      simp only [Stmt.moved, Expr.moved, forall_mem_append] at h
      rw [Stmt.eval]
      exact C.moveMem (along_expr C addr h.1) (along_expr C src h.2) cx.mode src
    | temp name =>
      simp only [Stmt.moved, forall_mem_cons] at h
      rw [Stmt.eval]
      · exact C.bind (along_expr C src h.2) fun _ => C.bind (C.take _ _) fun v => h.1 v
      · simp
    | _ =>
      simp only [Stmt.moved, forall_mem_append] at h
      rw [Stmt.eval]
      · exact C.bind (along_expr C src h.2) fun _ => C.bind (C.take _ _) fun _ => C.throw _
      · simp
  | .exp x, h => by
    rw [Stmt.eval]
    exact C.bind (along_expr C x (by simpa only [Stmt.moved] using h)) fun _ => C.pure _
  | .jump _, _ => by
    rw [Stmt.eval]
    exact C.throw _
  | .cjump cond _ _, h => by
    rw [Stmt.eval]
    exact C.bind (along_expr C cond (by simpa only [Stmt.moved] using h)) fun _ =>
      C.bind (C.take _ _) fun _ => C.throw _
  | .ret values, h => by
    rw [Stmt.eval]
    exact C.bind (along_exprs C values (by simpa only [Stmt.moved] using h)) fun _ =>
      C.bind (C.takeAll _ _) fun _ => C.throw _
  | .call returns _ args, h => by
    rw [Stmt.eval]
    refine C.bind (along_exprs C args (by simpa only [Stmt.moved] using h)) fun _ =>
      C.bind (C.takeAll _ _) fun _ => C.bind (C.call _ _) fun results => ?_
    by_cases hr : 0 < returns ∧ (results.length : Int) < returns
    · simp only [hr, and_self, if_true]
      exact C.throw _
    · simp only [hr, if_false]
      exact C.pure _

/-- The evaluation of an expression stays within the relation. -/
lemma along_expr (C : Course R cx) : (x : Expr) →
    (∀ r ∈ x.moved, ∀ v, Along R (setRegister r v)) → Along R (x.eval cx)
  | .const _, _ => C.pure _
  | .temp name, _ => C.readRegister _ name
  | .name _, _ => C.pure _
  | .mem addr, h => by
    rw [Expr.eval]
    exact C.bind (along_expr C addr (by simpa only [Expr.moved] using h)) fun _ =>
      C.bind (C.take _ _) fun _ => C.bind (C.load _) fun _ => C.pure _
  | .binop op left right, h => by
    simp only [Expr.moved, forall_mem_append] at h
    rw [Expr.eval]
    refine C.bind (along_expr C left h.1) fun _ => C.bind (along_expr C right h.2) fun _ =>
      C.bind (C.take _ _) fun l => C.bind (C.take _ _) fun r => ?_
    cases Word.binop op l r with
    | ok v => exact C.pure _
    | error cause => exact C.throw _
  | .unop _ x, h => by
    rw [Expr.eval]
    exact C.bind (along_expr C x (by simpa only [Expr.moved] using h)) fun _ =>
      C.bind (C.take _ _) fun _ => C.pure _
  | .call _ args, h => by
    rw [Expr.eval]
    exact C.bind (along_exprs C args (by simpa only [Expr.moved] using h)) fun _ =>
      C.bind (C.takeAll _ _) fun _ => C.bind (C.call _ _) fun _ => C.pure _
  | .eseq s x, h => by
    simp only [Expr.moved, forall_mem_append] at h
    rw [Expr.eval]
    exact C.bind (along_stmt C s h.1) fun _ => along_expr C x h.2

lemma along_seq (C : Course R cx) : (ss : List Stmt) →
    (∀ r ∈ Stmt.movedAll ss, ∀ v, Along R (setRegister r v)) →
    ∀ start, Along R (Stmt.evalSeq cx ss start)
  | [], _, _ => C.pure _
  | s :: ss, h, none => by
    simp only [Stmt.movedAll, forall_mem_append] at h
    rw [Stmt.evalSeq]
    exact C.bind (Course.seek (along_stmt C s h.1)) fun start => along_seq C ss h.2 start
  | s :: ss, h, some _ => by
    simp only [Stmt.movedAll, forall_mem_append] at h
    rw [Stmt.evalSeq]
    exact along_seq C ss h.2 _

lemma along_exprs (C : Course R cx) : (xs : List Expr) →
    (∀ r ∈ Expr.movedAll xs, ∀ v, Along R (setRegister r v)) → Along R (Expr.evalAll cx xs)
  | [], _ => C.pure _
  | x :: xs, h => by
    simp only [Expr.movedAll, forall_mem_append] at h
    rw [Expr.evalAll]
    exact C.bind (along_expr C x h.1) fun _ => C.bind (along_exprs C xs h.2) fun _ => C.pure _

end

end

/-! ### Registers -/

def Holds (r : String) (ρ ρ' : Env) : Prop :=
  ∀ v, ρ.regs.get? r = some v → ρ'.regs.get? r = some v

/-- No filler and no result of a call gets into a register that has a value, unless it is one
for results. -/
lemma course_holds (cx : Context) {r : String} (hr : ∀ i, r ≠ retReg i) : Course (Holds r) cx where
  refl _ _ h := h
  trans h h' v hv := h' v (h v hv)
  fill name := by
    intro ρ v hv
    rcases fill_eq name ρ with ⟨w, hw⟩ | ⟨w, f, hn, hw⟩
    · rw [hw]
      exact hv
    · have hne : r ≠ name := by
        rintro rfl
        rw [hn] at hv
        cases hv
      rw [hw]
      exact (Registers.get?_set_of_ne _ _ hne).trans hv
  store a w := by
    intro ρ v hv
    unfold Eval.onWorld
    cases World.store a w ρ.world <;> exact hv
  call f vs := by
    intro ρ v hv
    unfold Eval.callBy
    cases cx.call f vs ρ.world with
    | ok results world => exact (Registers.get?_setAll_of_ne _ _ hr _ _).trans hv
    | error stop world => exact hv

lemma along_setRegister (h : r ≠ name) (w : Int32) :
    Eval.Along (Holds r) (Eval.setRegister name w) :=
  fun _ _ hv => (Registers.get?_set_of_ne _ _ h).trans hv

section

variable {cx : Context} {r : String} (hr : ∀ i, r ≠ retReg i)

include hr

lemma holds_stmt {s : Stmt} (h : r ∉ s.moved) : Eval.Along (Holds r) (s.eval cx) :=
  along_stmt (course_holds cx hr) s fun _ hm => along_setRegister fun he => h (he ▸ hm)

lemma holds_expr {x : Expr} (h : r ∉ x.moved) : Eval.Along (Holds r) (x.eval cx) :=
  along_expr (course_holds cx hr) x fun _ hm => along_setRegister fun he => h (he ▸ hm)

end

end TreeMachine.Structured
