import TreeMachine.Proofs.CompiledConfined
import TreeMachine.Proofs.Meaning
import TreeMachine.Proofs.Moved
import TreeMachine.Proofs.Sequences
import TreeMachine.Proofs.Supply

/-!
# Compiled expressions do what trees mean

The evaluation of a tree and that of its code go side by side. A declaration's cell is its
register, and both sides act on one world. Whatever ends the evaluation of the tree ends that
of the code: a fault is the same fault, except that an index out of bounds shows as a jump to the
trap. Only where the tree reads a variable without a value nothing is said.
-/

namespace TreeMachine.Structured

open TreeMachine.Tree

variable {p : Nat × String} {a v : Int32} {x src : Expr} {o : Operand} {value : Tree.Eval Int32}
  {yes no : String}

/-! ### Environments -/

/-- Declarations and registers go together one to one, and no register is one for arguments or
results. -/
structure OneToOne (B : List (Nat × String)) : Prop where
  ids : (B.map (·.1)).Nodup
  regs : (B.map (·.2)).Nodup
  own : ∀ p ∈ B, isConventionReg p.2 = false

lemma OneToOne.id_eq_iff (h : OneToOne B) (hp : p ∈ B) (hq : q ∈ B) : p.1 = q.1 ↔ p.2 = q.2 := by
  constructor
  · intro he
    rw [List.inj_on_of_nodup_map h.ids hp hq he]
  · intro he
    rw [List.inj_on_of_nodup_map h.regs hp hq he]

lemma OneToOne.ne_retReg (h : OneToOne B) (hp : p ∈ B) (i : Nat) : p.2 ≠ retReg i := by
  intro he
  have := h.own p hp
  rw [he, isConventionReg_retReg] at this
  cases this

lemma OneToOne.ne_argReg (h : OneToOne B) (hp : p ∈ B) (i : Nat) : p.2 ≠ argReg i := by
  intro he
  have := h.own p hp
  rw [he, isConventionReg_argReg] at this
  cases this

/-- No declaration has a register with a number above `k`, up to `k'`. -/
def Clear (B : List (Nat × String)) (k k' : Nat) : Prop :=
  ∀ p ∈ B, ∀ hint n, p.2 = numbered hint n → n ≤ k ∨ k' < n

lemma Clear.mono (h : Clear B k k') (hj : k ≤ j) (hj' : j' ≤ k') : Clear B j j' := by
  intro p hp hint n he
  have := h p hp hint n he
  omega

lemma Clear.ne (h : Clear B k k') (hint : String) (hlo : k < n) (hhi : n ≤ k') :
    ∀ p ∈ B, p.2 ≠ numbered hint n := by
  intro p hp he
  have := h p hp hint n he
  omega

/-- Every cell is in the register of its declaration, and the worlds are equal. -/
structure Same (B : List (Nat × String)) (σ : Tree.Env) (ρ : Env) : Prop where
  world : ρ.world = σ.world
  cells : ∀ p ∈ B, ρ.regs.get? p.2 = σ.cells p.1

namespace Same

variable {B : List (Nat × String)} {σ : Tree.Env} {ρ : Env}

lemma set (h : Same B σ ρ) (hB : OneToOne B) {id : Nat} {reg : String} (hp : (id, reg) ∈ B)
    (v : Int32) : Same B { σ with cells := Function.update σ.cells id (some v) }
      { ρ with regs := ρ.regs.set reg v } := by
  refine ⟨h.world, fun q hq => ?_⟩
  have hiff := hB.id_eq_iff hq hp
  show (ρ.regs.set reg v).get? q.2 = Function.update σ.cells id (some v) q.1
  rw [Registers.get?_set, Function.update_apply]
  by_cases he : q.2 = reg
  · rw [if_pos he, if_pos (hiff.2 he)]
  · rw [if_neg he, if_neg fun hid => he (hiff.1 hid)]
    exact h.cells q hq

lemma setOther (h : Same B σ ρ) (hr : ∀ p ∈ B, p.2 ≠ r) (v : Int32) :
    Same B σ { ρ with regs := ρ.regs.set r v } :=
  ⟨h.world, fun p hp => (Registers.get?_set_of_ne _ _ (hr p hp)).trans (h.cells p hp)⟩

lemma setResults (h : Same B σ ρ) (hB : OneToOne B) (results : List Int32) (w : World) :
    Same B { σ with world := w } { regs := ρ.regs.setAll retReg 1 results, world := w } :=
  ⟨rfl, fun p hp => (Registers.get?_setAll_of_ne _ _ (hB.ne_retReg hp) _ _).trans (h.cells p hp)⟩

lemma setWorld (h : Same B σ ρ) (w : World) : Same B { σ with world := w } { ρ with world := w } :=
  ⟨rfl, h.cells⟩

end Same

/-! ### Results -/

/-- How a call that stops shows outside the function. -/
def Outside : Tree.Stop → Stop → Prop
  | .fault c, e => e = .fault c ∨ ∃ src, e = .target c src
  | .exhausted, e => e = .exhausted
  | _, _ => False

/-- How a stop shows in the code of the function `name`. -/
def Shows (name : String) (e : Tree.Stop) (e' : Stop) : Prop :=
  Outside e e' ∨ (e = .fault (.indexOutOfBounds name) ∧ e' = .goto (trapOf name)) ∨
    ∃ vs, e = .leave vs ∧ e' = .leave vs

lemma Outside.escapes (h : Outside e e') (labels : List String) : e'.Escapes labels := by
  cases e with
  | fault c =>
    rcases h with rfl | ⟨src, rfl⟩
    · trivial
    · trivial
  | exhausted =>
    obtain rfl : e' = .exhausted := h
    trivial
  | _ => exact h.elim

lemma Shows.escapes (h : Shows name e e') (hl : trapOf name ∉ labels) : e'.Escapes labels := by
  rcases h with h | ⟨-, rfl⟩ | ⟨vs, -, rfl⟩
  · exact h.escapes labels
  · exact hl
  · trivial

/-- The results of evaluating a tree and its code agree: values are related by `Q`, and the
environments are the same; or both stop for the same reason. -/
def Sim {α β : Type} (B : List (Nat × String)) (name : String) (Q : α → β → Env → Prop) :
    EStateM.Result Tree.Stop Tree.Env α → EStateM.Result Stop Env β → Prop
  | .ok a σ, r => ∃ b ρ, r = .ok b ρ ∧ Q a b ρ ∧ Same B σ ρ
  | .error e σ, r => e = .unset ∨ ∃ e' ρ, r = .error e' ρ ∧ Shows name e e' ∧ ρ.world = σ.world

def Answers : EStateM.Result Tree.Stop World (List Int32) →
    EStateM.Result Stop World (List Int32) → Prop
  | .ok vs w, r => r = .ok vs w
  | .error e w, r => e = .unset ∨ ∃ e', r = .error e' w ∧ Outside e e'

/-- Trees and code of a function are evaluated in the same circumstances. -/
structure Fits (tcx : Tree.Context) (cx : Context) : Prop where
  mode : cx.mode = tcx.mode
  budget : cx.budget = tcx.budget
  call : ∀ f args w, Answers (tcx.call f args w) (cx.call f args w)
  malloc : ∀ size w, cx.call "malloc" [size] w = match World.alloc size w with
    | .ok addr w => .ok [addr] w
    | .error c w => .error (.fault c) w

def IsWord (v : Int32) (o : Operand) (_ : Env) : Prop :=
  o.word? = some v

lemma takeAll_of_words (h : List.Forall₂ (fun v o => Operand.word? o = some v) vs os) (ρ : Env) :
    Eval.takeAll care os ρ = .ok vs ρ := by
  induction h with
  | nil => rfl
  | cons hv _ ih =>
    rw [Eval.takeAll, bind_ok (take_of_word hv ρ), bind_ok ih]
    rfl

section

variable {α β γ δ : Type} {B : List (Nat × String)} {name : String} {σ : Tree.Env} {ρ : Env}

namespace Sim

variable {Q : α → β → Env → Prop} {Q' : γ → δ → Env → Prop}

variable {all ss : List Stmt} {s : Stmt}

lemma ok {a : α} {b : β} (hq : Q a b ρ) (h : Same B σ ρ) : Sim B name Q (.ok a σ) (.ok b ρ) :=
  ⟨b, ρ, rfl, hq, h⟩

lemma imp {r r' Q'} (h : Sim B name Q r r') (hq : ∀ {a b ρ}, Q a b ρ → Q' a b ρ) :
    Sim B name Q' r r' := by
  cases r with
  | ok a σ =>
    obtain ⟨b, ρ, rfl, hb, hs⟩ := h
    exact ⟨b, ρ, rfl, hq hb, hs⟩
  | error e σ => exact h

lemma bind {m : Tree.Eval α} {m' : Eval β} {f : α → Tree.Eval γ} {g : β → Eval δ}
    (h : Sim B name Q (m σ) (m' ρ))
    (hf : ∀ {a b σ' ρ'}, Q a b ρ' → Same B σ' ρ' → Sim B name Q' (f a σ') (g b ρ')) :
    Sim B name Q' ((m >>= f) σ) ((m' >>= g) ρ) := by
  cases hr : m σ with
  | ok a σ' =>
    rw [hr] at h
    obtain ⟨b, ρ', hr', hq, hs⟩ := h
    rw [bind_ok hr, bind_ok hr']
    exact hf hq hs
  | error e σ' =>
    rw [hr] at h
    rw [bind_error hr]
    refine h.imp_right ?_
    rintro ⟨e', ρ', hr', hshow, hw⟩
    exact ⟨e', ρ', bind_error hr', hshow, hw⟩

lemma andThen {m : Tree.Eval α} {m' : Eval β} {g : β → Eval δ} {Q' : α → δ → Env → Prop}
    (h : Sim B name Q (m σ) (m' ρ))
    (hf : ∀ {a b σ' ρ'}, Q a b ρ' → Same B σ' ρ' → Sim B name Q' (.ok a σ') (g b ρ')) :
    Sim B name Q' (m σ) ((m' >>= g) ρ) := by
  have hbind := h.bind (f := fun a => (pure a : Tree.Eval α)) hf
  rwa [bind_pure] at hbind

lemma andReturn {m : Tree.Eval α} {m' : Eval β} {f : α → Tree.Eval γ} {Q' : γ → β → Env → Prop}
    (h : Sim B name Q (m σ) (m' ρ))
    (hf : ∀ {a b σ' ρ'}, Q a b ρ' → Same B σ' ρ' → Sim B name Q' (f a σ') (.ok b ρ')) :
    Sim B name Q' ((m >>= f) σ) (m' ρ) := by
  have hbind := h.bind (g := fun b => (pure b : Eval β)) hf
  rwa [bind_pure] at hbind

lemma resume {cx : Context} {n : Nat} {m : Tree.Eval α} {f : α → Tree.Eval γ}
    {Q : α → Unit → Env → Prop} {Q' : γ → Unit → Env → Prop}
    (h : Sim B name Q (m σ) (s.eval cx ρ)) (hsub : labelsIn ss ⊆ labelsIn all)
    (htrap : trapOf name ∉ labelsIn all) (hf : ∀ {a σ' ρ'}, Q a () ρ' → Same B σ' ρ' →
      Sim B name Q' (f a σ') (Stmt.resume cx all n ss ρ')) :
    Sim B name Q' ((m >>= f) σ) (Stmt.resume cx all n (s :: ss) ρ) := by
  cases hr : m σ with
  | ok a σ' =>
    rw [hr] at h
    obtain ⟨b, ρ', hr', hq, hs⟩ := h
    rw [bind_ok hr, resume_ok hr']
    exact hf hq hs
  | error e σ' =>
    rw [hr] at h
    rw [bind_error hr]
    refine h.imp_right ?_
    rintro ⟨e', ρ', hr', hshow, hw⟩
    exact ⟨e', ρ', resume_stop hr' hsub (hshow.escapes htrap), hshow, hw⟩

lemma last {cx : Context} {n : Nat} {m : Tree.Eval α} {Q : α → Unit → Env → Prop}
    (h : Sim B name Q (m σ) (s.eval cx ρ)) (htrap : trapOf name ∉ labelsIn all) :
    Sim B name Q (m σ) (Stmt.resume cx all n [s] ρ) := by
  have hbind : Sim B name Q ((m >>= pure) σ) (Stmt.resume cx all n [s] ρ) :=
    h.resume (List.nil_subset _) htrap fun hq hs => .ok hq hs
  rwa [bind_pure] at hbind

lemma resumeIdle {cx : Context} {n : Nat} {ρ' : Env} {r : EStateM.Result Tree.Stop Tree.Env α}
    {Q : α → Unit → Env → Prop} (h : s.eval cx ρ = .ok () ρ')
    (hf : Sim B name Q r (Stmt.resume cx all n ss ρ')) :
    Sim B name Q r (Stmt.resume cx all n (s :: ss) ρ) := by
  rwa [resume_ok h]

lemma seq {cx : Context} {labels : List String} {r : EStateM.Result Tree.Stop Tree.Env α}
    {Q : α → Unit → Env → Prop} (hl : labelsIn ss = labels)
    (h : ∀ {all}, labelsIn all = labels → all = ss →
      Sim B name Q r (Stmt.resume cx all cx.budget ss ρ)) :
    Sim B name Q r ((Stmt.seq ss).eval cx ρ) := by
  rw [eval_seq]
  exact h hl rfl

lemma holding (h : Sim B name Q r (m' ρ)) (hA : Eval.Along (Holds A) m')
    (hv : ρ.regs.get? A = some v) :
    Sim B name (fun a b ρ' => Q a b ρ' ∧ ρ'.regs.get? A = some v) r (m' ρ) := by
  cases r with
  | ok a σ' =>
    obtain ⟨b, ρ', hr', hq, hs⟩ := h
    have hkept := hA ρ v hv
    rw [hr'] at hkept
    exact ⟨b, ρ', hr', ⟨hq, hkept⟩, hs⟩
  | error e σ' => exact h

end Sim

/-! ### Single steps -/

lemma load_of_ok (h : σ.world.heap.load a = .ok v) : Tree.Eval.load a σ = .ok v σ := by
  simp only [Tree.Eval.load, Tree.Eval.onWorld, World.inspect, h]

lemma load_of_error (h : σ.world.heap.load a = .error c) :
    Tree.Eval.load a σ = .error (.fault c) σ := by
  simp only [Tree.Eval.load, Tree.Eval.onWorld, World.inspect, h]

section

variable {tcx : Tree.Context} {cx : Context}

lemma eval_temp (h : ρ.regs.get? r = some v) :
    (Expr.temp r).eval cx ρ = .ok (.reg r (some v)) ρ := by
  simp only [Expr.eval, Eval.readRegister, h]

lemma eval_reference (h : ρ.regs.get? base = some a) :
    (Compile.plus (.temp base) Compile.word).eval cx ρ = .ok (.value (a + 4)) ρ := by
  simp only [Compile.plus, Compile.word, Expr.eval, Eval.readRegister, h, Eval.take, Word.binop,
    bind, EStateM.bind, pure, EStateM.pure]

lemma sim_onWorld (h : Same B σ ρ) (a : Act α) :
    Sim B name (fun x y _ => x = y) (Tree.Eval.onWorld a σ) (Eval.onWorld a ρ) := by
  unfold Tree.Eval.onWorld Eval.onWorld
  rw [h.world]
  cases a σ.world with
  | ok x w => exact .ok rfl (h.setWorld w)
  | error c w => exact .inr ⟨_, _, rfl, .inl (.inl rfl), rfl⟩

lemma sim_load (h : Same B σ ρ) (addr : Int32) :
    Sim B name (fun x y _ => x = y) (Tree.Eval.load addr σ) (Eval.load addr ρ) :=
  sim_onWorld h _

lemma sim_call (F : Fits tcx cx) (hB : OneToOne B) (h : Same B σ ρ) (f : String)
    (args : List Int32) :
    Sim B name (fun vs ws ρ' => vs = ws ∧ ∃ regs : Registers, ρ'.regs = regs.setAll retReg 1 vs)
      (Tree.Eval.call tcx f args σ) (Eval.callBy cx.call f args ρ) := by
  unfold Tree.Eval.call Eval.callBy
  have hcall := F.call f args σ.world
  rw [h.world]
  cases hr : tcx.call f args σ.world with
  | ok vs w =>
    rw [hr] at hcall
    rw [show cx.call f args σ.world = _ from hcall]
    exact .ok ⟨rfl, ρ.regs, rfl⟩ (h.setResults hB vs w)
  | error e w =>
    rw [hr] at hcall
    refine hcall.imp_right ?_
    rintro ⟨e', he, hout⟩
    rw [he]
    exact ⟨e', _, rfl, .inl hout, rfl⟩

lemma sim_moveOther (hx : Sim B name IsWord r (x.eval cx ρ)) (ht : ∀ p ∈ B, p.2 ≠ t) :
    Sim B name (fun v _ ρ' => ρ'.regs.get? t = some v) r ((Stmt.move (.temp t) x).eval cx ρ) := by
  rw [Stmt.eval]
  · cases r with
    | ok v σ' =>
      obtain ⟨o, ρ', hr', ho, hs⟩ := hx
      rw [bind_ok hr', bind_ok (take_of_word ho ρ')]
      exact .ok (Registers.get?_set_self _ _ _) (hs.setOther ht v)
    | error e σ' =>
      refine hx.imp_right ?_
      rintro ⟨e', ρ', hr', hshow, hw⟩
      exact ⟨e', ρ', bind_error hr', hshow, hw⟩
  · simp

lemma sim_moveDeclared (hB : OneToOne B) {m id reg} (hp : (id, reg) ∈ B)
    (hx : Sim B name IsWord (m σ) (x.eval cx ρ)) :
    Sim B name (fun _ _ _ => True) ((m >>= fun v => Tree.Eval.setCell id v) σ)
      ((Stmt.move (.temp reg) x).eval cx ρ) := by
  rw [Stmt.eval]
  · refine hx.bind fun {v o σ' ρ'} ho hs => ?_
    rw [bind_ok (take_of_word ho ρ')]
    exact .ok trivial (hs.set hB hp v)
  · simp

lemma sim_moveValue (hB : OneToOne B) {id : Nat} {reg : String} (hp : (id, reg) ∈ B)
    (hx : x.eval cx ρ = .ok o ρ) (ho : o.word? = some v) (h : Same B σ ρ) :
    Sim B name (fun _ _ _ => True) (Tree.Eval.setCell id v σ)
      ((Stmt.move (.temp reg) x).eval cx ρ) := by
  have hmove : Sim B name (fun _ _ _ => True) ((pure v >>= fun v => Tree.Eval.setCell id v) σ)
      ((Stmt.move (.temp reg) x).eval cx ρ) :=
    sim_moveDeclared hB hp (hx ▸ .ok ho h)
  rwa [pure_bind] at hmove

/-! ### Stores -/

def Stmt.storeAt (cx : Context) (src : Expr) (a : Int32) : Eval Unit := do
  if !cx.mode.lax then Eval.checkTarget src a
  let v ← Eval.take cx.mode.care (← src.eval cx)
  if cx.mode.lax then let _ ← Eval.load a
  Eval.onWorld (World.store a v)

lemma eval_store (h : addr.eval cx ρ = .ok o ρ') (ho : o.word? = some a) :
    (Stmt.move (.mem addr) src).eval cx ρ = Stmt.storeAt cx src a ρ' := by
  rw [Stmt.eval, bind_ok h, bind_ok (take_of_word ho ρ')]
  rfl

lemma storeAt_strict (h : cx.mode.lax = false) :
    Stmt.storeAt cx src a = (do
      Eval.checkTarget src a
      let v ← Eval.take cx.mode.care (← src.eval cx)
      Eval.onWorld (World.store a v)) := by
  unfold Stmt.storeAt
  rw [h]
  rfl

lemma storeAt_lax (h : cx.mode.lax = true) :
    Stmt.storeAt cx src a = (do
      let v ← Eval.take cx.mode.care (← src.eval cx)
      let _ ← Eval.load a
      Eval.onWorld (World.store a v)) := by
  unfold Stmt.storeAt
  rw [h]
  rfl

lemma put_strict (h : mode.lax = false) :
    Tree.Eval.put mode a value = (do
      let _ ← Tree.Eval.load a
      let v ← value
      Tree.Eval.onWorld (World.store a v)) := by
  unfold Tree.Eval.put
  rw [h]
  rfl

lemma put_lax (h : mode.lax = true) :
    Tree.Eval.put mode a value = (do
      let v ← value
      let _ ← Tree.Eval.load a
      Tree.Eval.onWorld (World.store a v)) := by
  unfold Tree.Eval.put
  rw [h]
  rfl

lemma sim_storeAt (F : Fits tcx cx) (hv : Sim B name IsWord (value σ) (src.eval cx ρ))
    (h : Same B σ ρ) (a : Int32) :
    Sim B name (fun _ _ _ => True) (Tree.Eval.put tcx.mode a value σ)
      (Stmt.storeAt cx src a ρ) := by
  have hmode := F.mode
  have hstore : ∀ {σ ρ} (v : Int32), Same B σ ρ → Sim B name (fun _ _ _ => True)
      (Tree.Eval.onWorld (World.store a v) σ) (Eval.onWorld (World.store a v) ρ) :=
    fun v hs => (sim_onWorld hs _).imp fun _ => trivial
  cases hlax : tcx.mode.lax with
  | false =>
    rw [put_strict hlax, storeAt_strict (by rw [hmode, hlax])]
    cases hl : σ.world.heap.load a with
    | error c =>
      have hcheck : Eval.checkTarget src a ρ = .error (.target c src) ρ := by
        simp only [Eval.checkTarget, h.world, hl]
      rw [bind_error (load_of_error hl), bind_error hcheck]
      exact .inr ⟨_, _, rfl, .inl (.inr ⟨src, rfl⟩), h.world⟩
    | ok w =>
      have hcheck : Eval.checkTarget src a ρ = .ok () ρ := by
        simp only [Eval.checkTarget, h.world, hl]
      rw [bind_ok (load_of_ok hl), bind_ok hcheck]
      refine hv.bind fun {v o σ' ρ'} ho hs => ?_
      rw [bind_ok (take_of_word ho ρ')]
      exact hstore v hs
  | true =>
    rw [put_lax hlax, storeAt_lax (by rw [hmode, hlax])]
    refine hv.bind fun {v o σ' ρ'} ho hs => ?_
    rw [bind_ok (take_of_word ho ρ')]
    exact (sim_load hs a).bind fun _ hs => hstore v hs

/-! ### Arrays -/

lemma sim_malloc (F : Fits tcx cx) (hB : OneToOne B) (h : Same B σ ρ) (hx : x.eval cx ρ = .ok o ρ)
    (ho : o.word? = some size) :
    Sim B name IsWord (Tree.Eval.onWorld (World.alloc size) σ) ((Compile.malloc x).eval cx ρ) := by
  have hall : Expr.evalAll cx [x] ρ = .ok [o] ρ := by
    rw [Expr.evalAll, bind_ok hx]
    rfl
  rw [Compile.malloc, Expr.eval, bind_ok hall, bind_ok (takeAll_of_words (.cons ho .nil) ρ)]
  have hcall := F.malloc size σ.world
  have hword : ∀ {addr w}, World.alloc size σ.world = .ok addr w →
      Eval.callBy cx.call (Expr.label (.name "malloc")) [size] ρ =
        .ok [addr] { regs := ρ.regs.setAll retReg 1 [addr], world := w } := by
    intro addr w hw
    rw [hw] at hcall
    simp only [Eval.callBy, Expr.label, h.world, hcall]
  unfold Tree.Eval.onWorld
  cases hw : World.alloc size σ.world with
  | ok addr w =>
    rw [bind_ok (hword hw)]
    exact .ok rfl (h.setResults hB [addr] w)
  | error c w =>
    rw [hw] at hcall
    have herror : Eval.callBy cx.call (Expr.label (.name "malloc")) [size] ρ =
        .error (.fault c) { ρ with world := w } := by
      simp only [Eval.callBy, Expr.label, h.world, hcall]
    rw [bind_error herror]
    exact .inr ⟨_, _, rfl, .inl (.inl rfl), rfl⟩

section

variable (F : Fits tcx cx) (hB : OneToOne B) {base : String} (hbase : ∀ p ∈ B, p.2 ≠ base)
  (hret : ∀ i, base ≠ retReg i)

/-- The evaluation of a value and that of its code, which leaves the base of an array alone. -/
def SimBeside (B : List (Nat × String)) (name : String) (cx : Context) (base : String)
    (value : Tree.Eval Int32) (x : Expr) : Prop :=
  (∀ {σ ρ}, Same B σ ρ → Sim B name IsWord (value σ) (x.eval cx ρ)) ∧ base ∉ x.moved

include F hret

lemma sim_elements (hall : trapOf name ∉ labelsIn all)
    (hvs : List.Forall₂ (SimBeside B name cx base) values xs) (i : Nat) (h : Same B σ ρ)
    (ha : ρ.regs.get? base = some a) :
    Sim B name (fun _ _ ρ' => ρ'.regs.get? base = some a) (Tree.Eval.putAll tcx.mode a i values σ)
      (Stmt.resume cx all n (Compile.elementMoves (.temp base) i xs) ρ) := by
  induction hvs generalizing i σ ρ with
  | nil => exact .ok ha h
  | @cons value x values xs hv _ ih =>
    have haddr : (Compile.plus (.temp base) (.const (Int32.ofNat (i + 1) * 4))).eval cx ρ =
        .ok (.value (a + Int32.ofNat (i + 1) * 4)) ρ := by
      simp only [Compile.plus, Expr.eval, Eval.readRegister, ha, Eval.take, Word.binop, bind,
        EStateM.bind, pure, EStateM.pure]
    have hmoved : base ∉ (Stmt.move (.mem (Compile.plus (.temp base)
        (.const (Int32.ofNat (i + 1) * 4)))) x).moved := by
      simpa [Stmt.moved, Expr.moved, Compile.plus] using hv.2
    have hstore : Sim B name (fun _ _ _ => True)
        (Tree.Eval.put tcx.mode (a + Int32.ofNat (i + 1) * 4) value σ)
        ((Stmt.move (.mem (Compile.plus (.temp base) (.const (Int32.ofNat (i + 1) * 4)))) x).eval
          cx ρ) := by
      rw [eval_store haddr rfl]
      exact sim_storeAt F (hv.1 h) h _
    rw [Compile.elementMoves, Tree.Eval.putAll]
    refine (hstore.holding (holds_stmt hret hmoved) ha).resume ?_ hall
      fun hq hs => ih (i + 1) hs hq.2
    rw [Compile.labelsIn_elementMoves]
    exact List.nil_subset _

include hB hbase

lemma sim_literal (hvs : List.Forall₂ (SimBeside B name cx base) values xs) (h : Same B σ ρ) :
    Sim B name (fun ref _ ρ' => ∃ a, ρ'.regs.get? base = some a ∧ ref = a + 4)
      (Tree.Eval.newArray tcx.mode values σ)
      ((Compile.literalCode (.temp base) xs).eval cx ρ) := by
  have hlabels : labelsIn (Compile.elementMoves (.temp base) 0 xs) = [] :=
    Compile.labelsIn_elementMoves _ _ _
  refine Sim.seq (show _ = [] by simp [labelsIn_cons, hlabels, Stmt.label?])
    fun {all} hall _ => ?_
  have htrap : trapOf name ∉ labelsIn all := by simp [hall]
  rw [Tree.Eval.newArray, hvs.length_eq]
  refine (sim_moveOther (sim_malloc F hB h rfl rfl) hbase).resume
    (by simp [labelsIn_cons, hlabels, Stmt.label?]) htrap fun {a σ1 ρ1} ha hs => ?_
  have hlength : Sim B name (fun _ _ _ => True)
      (Tree.Eval.put tcx.mode a (pure (Int32.ofNat xs.length)) σ1)
      ((Stmt.move (.mem (.temp base)) (.const (Int32.ofNat xs.length))).eval cx ρ1) := by
    rw [eval_store (eval_temp ha) rfl]
    exact sim_storeAt F (.ok rfl hs) hs _
  refine (hlength.holding (holds_stmt hret (by simp [Stmt.moved, Expr.moved])) ha).resume
    (by simp [hlabels]) htrap fun {_ σ2 ρ2} hq hs => ?_
  refine (sim_elements F hret htrap hvs 0 hs hq.2).andReturn fun ha hs => ?_
  exact .ok ⟨a, ha, rfl⟩ hs

end

end

end

/-! ### The bounds check -/

open Compile (checkCode elementAddr word plus times)

section

variable {cx : Context} {ρ : Env} {A I : String} {ref k n : Int32}
  (hA : ρ.regs.get? A = some ref) (hI : ρ.regs.get? I = some k)

include hA hI

lemma eval_elementAddr :
    (elementAddr (.temp A) (.temp I)).eval cx ρ = .ok (.value (ref + 4 * k)) ρ := by
  simp only [elementAddr, plus, times, word, Expr.eval, Eval.readRegister, hA, hI, Eval.take,
    Word.binop, bind, EStateM.bind, pure, EStateM.pure]

lemma eval_compared (hn : ρ.world.heap.load (ref - 4) = .ok n) :
    (Stmt.cjump (.binop .ult (.temp I) (.mem (.binop .sub (.temp A) word))) yes no).eval cx ρ =
      .error (.goto (if k.toUInt32 < n.toUInt32 then yes else no)) ρ := by
  have hcond : (Expr.binop .ult (.temp I) (.mem (.binop .sub (.temp A) word))).eval cx ρ =
      .ok (.value (Word.ofBool (k.toUInt32 < n.toUInt32))) ρ := by
    simp only [word, Expr.eval, Eval.readRegister, hA, hI, Eval.take, Eval.load, Eval.onWorld,
      World.inspect, hn, Word.binop, bind, EStateM.bind, pure, EStateM.pure]
  rw [Stmt.eval, bind_ok hcond]
  by_cases hlt : k.toUInt32 < n.toUInt32
  · simp [Eval.take, hlt, Word.ofBool, bind, EStateM.bind, pure, EStateM.pure, throw,
      throwThe, MonadExceptOf.throw, EStateM.throw]
  · simp [Eval.take, hlt, Word.ofBool, bind, EStateM.bind, pure, EStateM.pure, throw,
      throwThe, MonadExceptOf.throw, EStateM.throw]

lemma eval_checkCode (ha : (Stmt.move (.temp A) xa).eval cx ρ0 = .ok () ρ1)
    (hi : (Stmt.move (.temp I) xi).eval cx ρ1 = .ok () ρ) (hn : ρ.world.heap.load (ref - 4) = .ok n)
    (hlt : k.toUInt32 < n.toUInt32) :
    (checkCode (.temp A) (.temp I) xa xi yes no).eval cx ρ0 = .ok () ρ := by
  have hjump : (Stmt.cjump (.binop .ult (.temp I) (.mem (.binop .sub (.temp A) word))) yes no).eval
      cx ρ = .error (.goto yes) ρ := by
    rw [eval_compared hA hI hn, if_pos hlt]
  rw [checkCode, eval_seq, resume_ok ha, resume_ok hi, resume_next hjump, resume_nil]

end

lemma eval_compared_error (hA : ρ.regs.get? A = some ref) (hI : ρ.regs.get? I = some k)
    (hc : ρ.world.heap.load (ref - 4) = .error c) :
    (Stmt.cjump (.binop .ult (.temp I) (.mem (.binop .sub (.temp A) word))) yes no).eval cx ρ =
      .error (.fault c) ρ := by
  simp only [Stmt.eval, word, Expr.eval, Eval.readRegister, hA, hI, Eval.take, Eval.load,
    Eval.onWorld, World.inspect, hc, Word.binop, bind, EStateM.bind, pure, EStateM.pure]

section

variable {B : List (Nat × String)} {tcx : Tree.Context} {cx : Context} {σ : Tree.Env} {ρ : Env}

lemma sim_check (hA : ∀ p ∈ B, p.2 ≠ A) (hI : ∀ p ∈ B, p.2 ≠ I) (hne : A ≠ I)
    (hret : ∀ i, A ≠ retReg i) (hmoved : A ∉ xi.moved) (hyes : yes ≠ trapOf tcx.function)
    (ha : ∀ {σ ρ}, Same B σ ρ → Sim B tcx.function IsWord (array σ) (xa.eval cx ρ))
    (hi : ∀ {σ ρ}, Same B σ ρ → Sim B tcx.function IsWord (idx σ) (xi.eval cx ρ)) (h : Same B σ ρ) :
    Sim B tcx.function (fun addr _ ρ' => ∃ ref k, ρ'.regs.get? A = some ref ∧
        ρ'.regs.get? I = some k ∧ addr = ref + 4 * k)
      ((do Tree.Eval.element tcx (← array) (← idx)) σ)
      ((checkCode (.temp A) (.temp I) xa xi yes (trapOf tcx.function)).eval cx ρ) := by
  rw [checkCode, eval_seq]
  have hescape : trapOf tcx.function ∉ [yes] := by simpa using Ne.symm hyes
  refine (sim_moveOther (ha h) hA).resume (List.Subset.refl _) hescape fun {ref σ1 ρ1} href hs => ?_
  refine ((sim_moveOther (hi hs) hI).holding (holds_stmt hret (by simp [Stmt.moved, hne, hmoved]))
    href).resume (List.Subset.refl _) hescape fun {k σ2 ρ2} hk hs => ?_
  obtain ⟨hk, href⟩ := hk
  unfold Tree.Eval.element
  have hsub : labelsIn [.label yes] ⊆ [yes] := List.Subset.refl [yes]
  cases hl : σ2.world.heap.load (ref - 4) with
  | error c =>
    rw [bind_error (load_of_error hl)]
    exact .inr ⟨_, _, resume_stop (eval_compared_error href hk (hs.world ▸ hl)) hsub trivial,
      .inl (.inl rfl), hs.world⟩
  | ok n =>
    have hjump : (Stmt.cjump (.binop .ult (.temp I) (.mem (.binop .sub (.temp A) word))) yes
        (trapOf tcx.function)).eval cx ρ2 = _ := eval_compared href hk (hs.world ▸ hl)
    rw [bind_ok (load_of_ok hl)]
    by_cases hlt : k.toUInt32 < n.toUInt32
    · rw [if_pos hlt] at hjump ⊢
      rw [resume_next hjump, resume_nil]
      exact .ok ⟨ref, k, href, hk, rfl⟩ hs
    · rw [if_neg hlt] at hjump ⊢
      exact .inr ⟨_, _, resume_stop hjump hsub hescape, .inr (.inl ⟨rfl, rfl⟩), hs.world⟩

end

end TreeMachine.Structured
