import TreeMachine.Proofs.Growth
import TreeMachine.Proofs.LoweredUnit

/-!
# Runs of flat statements

The machine runs lowered code along the evaluation of the code it comes from. This module has
the parts of such a run: a single flat statement, the moves that save values, and a call. The
environment of the run tracks that of the evaluation on the registers of the unit. Registers
that lowering has made belong to the stretch of code they were made for, and keep their values
outside of it (`Stays`).

A value that has no code yet is still to be evaluated when its statement is reached. Until
then its result `Waits`, be it an operand or a fault.
-/

open List

namespace TreeMachine

/-- An expression has neither calls nor statements in it. -/
def Structured.Expr.Calm : Structured.Expr → Prop
  | .const _ | .temp _ | .name _ => True
  | .mem addr => addr.Calm
  | .binop _ left right => left.Calm ∧ right.Calm
  | .unop _ x => x.Calm
  | .call _ _ | .eseq _ _ => False

namespace Flat

open Machine
open Structured
open Linear

/-! ### Registers -/

/-- A register that lowering has made, with a number up to `k`. -/
def Own (taken : Taken) (k : Nat) (r : String) : Prop :=
  r ∉ taken ∧ ∃ hint j, r = numbered hint j ∧ j ≤ k

/-- A register that can be read: one of the unit's, or one that has been made and set. -/
def Ready (taken : Taken) (k : Nat) (σ : Env) (r : String) : Prop :=
  r ∈ taken ∨ Own taken k r ∧ (σ.regs.get? r).isSome

/-- The made registers with numbers outside `k + 1, …, k'` have the values that they had. -/
def Stays (taken : Taken) (k k' : Nat) (σ σ' : Env) : Prop :=
  ∀ hint j, numbered hint j ∉ taken → j ≤ k ∨ k' < j →
    σ'.regs.get? (numbered hint j) = σ.regs.get? (numbered hint j)

section

variable {taken : Taken} {j k k1 k' : Nat} {σ σ1 σ2 : Env} {r : String}

lemma Stays.refl (σ : Env) : Stays taken k k' σ σ := fun _ _ _ _ => rfl

lemma Stays.trans (h : Stays taken k k' σ σ1) (h' : Stays taken k k' σ1 σ2) :
    Stays taken k k' σ σ2 :=
  fun hint j hn hj => (h' hint j hn hj).trans (h hint j hn hj)

lemma Stays.widen (h : Stays taken k k' σ σ1) (hk : k2 ≤ k) (hk' : k' ≤ k3) :
    Stays taken k2 k3 σ σ1 :=
  fun hint j hn hj => h hint j hn (by omega)

lemma Stays.append (h : Stays taken k k1 σ σ1) (h' : Stays taken k1 k' σ1 σ2) (hk : k ≤ k1)
    (hk' : k1 ≤ k') : Stays taken k k' σ σ2 :=
  (h.widen (le_refl k) hk').trans (h'.widen hk (le_refl k'))

lemma Refills.stays (h : Refills (· ∈ taken) σ σ1) : Stays taken k k' σ σ1 :=
  fun _ _ hn _ => h.other hn

lemma Stays.set_taken (h : Stays taken k k' σ σ1) (hr : r ∈ taken) (v : Int32) :
    Stays taken k k' σ { σ1 with regs := σ1.regs.set r v } := by
  intro hint j hn hj
  have hne : numbered hint j ≠ r := fun he => hn (he ▸ hr)
  exact (Registers.get?_set_of_ne _ _ hne).trans (h hint j hn hj)

lemma Stays.set_fresh (h : Stays taken k k' σ σ1) (hr : Fresh taken hint k1 r j) (hk : k ≤ k1)
    (hj : j ≤ k') (v : Int32) : Stays taken k k' σ { σ1 with regs := σ1.regs.set r v } := by
  intro hint' i hn hi
  have hne : numbered hint' i ≠ r := fun he => by
    have := (numbered_inj.1 (he.trans hr.eq)).2
    have := hr.lt
    omega
  exact (Registers.get?_set_of_ne _ _ hne).trans (h hint' i hn hi)

lemma Stays.setAll (h : Stays taken k k' σ σ1) (vs : List Int32) :
    Stays taken k k' σ { σ1 with regs := σ1.regs.setAll retReg 1 vs } := by
  intro hint i hn hi
  have hne : ∀ n, numbered hint i ≠ retReg n := ne_retReg_numbered hint i
  exact (Registers.get?_setAll_of_ne _ _ hne _ _).trans (h hint i hn hi)

lemma Own.mono (h : Own taken k r) (hk : k ≤ k') : Own taken k' r := by
  obtain ⟨hn, hint, j, rfl, hj⟩ := h
  exact ⟨hn, hint, j, rfl, le_trans hj hk⟩

lemma Own.stays (h : Own taken j r) (hs : Stays taken k k' σ σ1) (hj : j ≤ k) :
    σ1.regs.get? r = σ.regs.get? r := by
  obtain ⟨hn, hint, i, rfl, hi⟩ := h
  exact hs hint i hn (by omega)

lemma Fresh.own (h : Fresh taken hint k r k') : Own taken k' r :=
  ⟨h.free, hint, k', h.eq, le_refl k'⟩

lemma Ready.mono (h : Ready taken k σ r) (hk : k ≤ k') : Ready taken k' σ r :=
  h.imp id fun ⟨ho, hv⟩ => ⟨ho.mono hk, hv⟩

lemma Ready.refills (h : Ready taken k σ r) (hs : Refills known σ σ1) : Ready taken k σ1 r := by
  refine h.imp id fun ⟨ho, hv⟩ => ⟨ho, ?_⟩
  obtain ⟨v, hv⟩ := Option.isSome_iff_exists.1 hv
  simp [hs.keeps hv]

lemma Fresh.not_ready (h : Fresh taken hint k r k') (hj : j ≤ k) : ¬Ready taken j σ r := by
  rintro (hr | ⟨⟨-, hint', i, he, hi⟩, -⟩)
  · exact h.free hr
  · exact h.not_known (.inr ⟨hint', i, he, by omega⟩)

end

/-! ### Stages -/

/-- The next node saves a register without a value in a register that lowering has made. -/
def SavesUnset (p : Program) (taken : Taken) (s : State) : Prop :=
  s.frame.ip < s.frame.fn.stop ∧ ∃ reg r rest,
    p.code[s.frame.ip.toNat]? = some (.stmt (.move (.temp reg) (.temp r))) ∧ reg ∉ taken ∧
    s.operands.items = .reg r none :: rest

/-- A node saves the value of a register, which is on top of the stack and has none. -/
def savesNone (taken : Taken) : Structured.Node → Operand → Bool
  | .stmt (.move (.temp reg) (.temp r)), .reg top none => decide (reg ∉ taken ∧ top = r)
  | _, _ => false

lemma savesUnset_iff : SavesUnset p taken s ↔
    s.frame.ip < s.frame.fn.stop ∧ ∃ n ∈ p.code[s.frame.ip.toNat]?.toList,
      ∃ o ∈ s.operands.items.head?.toList, savesNone taken n o = true := by
  refine and_congr_right fun _ => ⟨?_, ?_⟩
  · rintro ⟨reg, r, rest, hn, hreg, hitems⟩
    exact ⟨_, Option.mem_toList.2 hn, .reg r none, by simp [hitems], by simp [savesNone, hreg]⟩
  · rintro ⟨n, hn, o, ho, h⟩
    unfold savesNone at h
    split at h
    next reg r top =>
      obtain ⟨hreg, rfl⟩ := of_decide_eq_true h
      obtain ⟨rest, hrest⟩ := List.head?_eq_some_iff.1 (Option.mem_toList.1 ho)
      exact ⟨reg, top, rest, by simpa using hn, hreg, hrest⟩
    · cases h

instance (p : Program) (taken : Taken) (s : State) : Decidable (SavesUnset p taken s) :=
  decidable_of_iff _ savesUnset_iff.symm

/-- Runs of lowered code follow evaluations up to the source of fillers, which matters only
where registers are filled. A store that is given up for its target is given up by the run
too if its source is calm. -/
def lowering (care : Care) : Agreement where
  world w w' := SameWorld care w w'
  fault c c' := c = c'
  checked src := src.Calm
  target _ _ := True
  unset _ := True

/-- What holds while the lowered code of a function runs that was entered in `s0`. -/
structure Stage (M : Setup) (Q : State → Prop) (cx : Context) (taken : Taken)
    (ok lab : String → Prop) (s0 : State) : Prop where
  strict : cx.mode.lax = false
  reads : cx.mode.care ≠ .reads
  named : "" ∉ taken
  keep : ∀ {s s'}, Q s → step M s = .ok .running s' → Q s'
  saves : cx.mode.care = .fills → ∀ {s}, Q s → ¬SavesUnset M.program taken s
  labels : ∀ {l}, lab l → (M.program.labels[l]?).isSome
  calls : Calls M Q (lowering cx.mode.care) cx.budget ok s0.frame.fn.name s0.depth cx.call
  grow : CallsGrow cx.call

section

variable (Q : State → Prop) (cx : Context) (taken : Taken) (s0 : State)

/-- The run stands at an address between statements. The stretch of code with the numbers
`k + 1, …, k'` was begun in the environment `σ0`. -/
def Stood (b k k' : Nat) (σ0 ρ : Env) (s : State) : Prop :=
  Q s ∧ ∃ σ t, s = s0.stand b σ s0.operands t ∧ Tracks cx.mode.care (· ∈ taken) ρ σ ∧
    Stays taken k k' σ0 σ

def lowers (M : Setup) (k k' : Nat) (σ0 : Env) : Exits Env where
  go l ρ s := ∃ b, M.program.labels[l]? = some b ∧ Stood Q cx taken s0 b k k' σ0 ρ s
  home vs ρ s := Q s ∧ ∃ b σ S t, step M s = leave M.program vs (s0.stand b σ S t) ∧
    SameWorld cx.mode.care ρ.world σ.world ∧ s0.operands.items <:+ S.items
  fault c ρ s := Fails M Q (lowering cx.mode.care) c ρ.world s
  target c src ρ s := src.Calm → Fails M Q (lowering cx.mode.care) c ρ.world s
  unset _ := True

/-- The run stands at an address between statements, and the result of expressions is still
to be evaluated by `ev`, whichever way that treats registers without a value. -/
def Waits {α β : Type} (b k k' : Nat) (σ0 : Env) (xs : List Expr) (R : α → β → Prop)
    (ev : Context → Eval β) (r : EStateM.Result Stop Env α) (s : State) : Prop :=
  Q s ∧ ∃ σ t, s = s0.stand b σ s0.operands t ∧ Stays taken k k' σ0 σ ∧
    (∀ x ∈ xs, x.Fits (Ready taken k' σ)) ∧
    ∀ cx' : Context, Grants cx.mode.care cx'.mode.care →
      Follows cx.mode.care (· ∈ taken) False R (Refills (· ∈ taken) σ) r (ev cx' σ)

end

def pends {α : Type} (X : Exits Env) (W : EStateM.Result Stop Env α → State → Prop) : Exits Env :=
  { X with fault := fun c ρ s => X.fault c ρ s ∨ W (.error (.fault c) ρ) s }

/-- How the machine treats registers without a value. -/
def flatly (cx : Context) : Context :=
  { cx with mode := { care := .fills, lax := false } }

section

variable {M : Setup} {Q : State → Prop} {cx : Context} {taken : Taken} {ok lab : String → Prop}
  {s0 s s' : State} {n a b j k k1 k' : Nat} {σ0 σ ρ τ : Env} {t : List Called} {α β : Type}

lemma keep_steps (hkeep : ∀ {s s'}, Q s → step M s = .ok .running s' → Q s')
    (h : Steps M Q' n s s') (hq : Q s) : Steps M Q n s s' ∧ Q s' := by
  induction h with
  | refl s => exact ⟨.refl s, hq⟩
  | head _ hs _ ih =>
    obtain ⟨hsteps, hq'⟩ := ih (hkeep hq hs)
    exact ⟨.head hq hs hsteps, hq'⟩

lemma lowers_le {k2 k3 : Nat} (h : Stays taken k k' σ0 σ) (hk : k ≤ k2) (hk' : k3 ≤ k') :
    (lowers Q cx taken s0 M k2 k3 σ).Le (lowers Q cx taken s0 M k k' σ0) where
  go := by
    rintro l ρ s ⟨b, hb, hq, σ', t, rfl, ht, hs⟩
    exact ⟨b, hb, hq, σ', t, rfl, ht, h.trans (hs.widen hk hk')⟩
  home := id
  fault := id
  target := id
  unset := id

lemma resume {X Y : Exits Env} {W : EStateM.Result Stop Env α → State → Prop}
    {fin : β → Env → State → Prop} {m : Eval α} {f : α → Eval β}
    (h : Lands M Q n (pends X W) (fun x ρ s => W (.ok x ρ) s) s (m ρ)) (hX : X.Le Y)
    (hW : ∀ {r s'}, W r s' → Lands M Q n Y fin s' (after r f)) :
    Lands M Q n Y fin s ((m >>= f) ρ) := by
  obtain ⟨i, s', hsteps, hm⟩ := h
  rw [bind_eq_after]
  cases hr : m ρ with
  | ok x ρ' =>
    rw [hr] at hm
    exact .after hsteps (hW hm)
  | error e ρ' =>
    rw [hr] at hm
    cases e with
    | fault c =>
      rcases hm with hm | hm
      · exact ⟨i, s', hsteps, hX.fault hm⟩
      · exact .after hsteps (hW hm)
    | target c src => exact ⟨i, s', hsteps, hX.target hm⟩
    | goto l => exact ⟨i, s', hsteps, hm.1, hX.go hm.2⟩
    | leave vs => exact ⟨i, s', hsteps, hX.home hm⟩
    | unset => exact ⟨i, s', hsteps, hX.unset hm⟩
    | exhausted => exact ⟨i, s', hsteps, hm⟩

lemma Waits.lands (h : Waits Q cx taken s0 b k k' σ0 xs R ev r s) :
    Lands M Q n (pends (lowers Q cx taken s0 M j k1 σ1) (Waits Q cx taken s0 b k k' σ0 xs R ev))
      (fun x ρ s => Waits Q cx taken s0 b k k' σ0 xs R ev (.ok x ρ) s) s r := by
  have hall := h.2
  obtain ⟨σ, t, -, -, -, hf⟩ := hall
  have hf := hf cx (.inl rfl)
  cases r with
  | ok x ρ => exact .done h
  | error e ρ =>
    obtain ⟨c, σ', rfl, -, -⟩ | rfl := hf.of_error
    · exact .now (.inr h)
    · exact .now trivial

lemma Waits.widen (h : Waits Q cx taken s0 b k1 k2 σ1 xs R ev r s) (hs : Stays taken k k' σ0 σ1)
    (hk : k ≤ k1) (hk' : k2 ≤ k') : Waits Q cx taken s0 b k k' σ0 xs R ev r s := by
  obtain ⟨hq, σ, t, rfl, hstays, hxs, hf⟩ := h
  exact ⟨hq, σ, t, rfl, hs.trans (hstays.widen hk hk'),
    fun x hx => (hxs x hx).imp fun _ hr => hr.mono hk', hf⟩

lemma Waits.next {γ δ : Type} {S : γ → δ → Prop} {ev' : Context → Eval δ}
    {r' : EStateM.Result Stop Env γ} (h : Waits Q cx taken s0 b k k' σ0 xs R ev r s)
    (hfits : ∀ {σ}, (∀ x ∈ xs, x.Fits (Ready taken k' σ)) → ∀ y ∈ ys, y.Fits (Ready taken k' σ))
    (hf : ∀ {cx' : Context} {σ}, Grants cx.mode.care cx'.mode.care →
      Follows cx.mode.care (· ∈ taken) False R (Refills (· ∈ taken) σ) r (ev cx' σ) →
      Follows cx.mode.care (· ∈ taken) False S (Refills (· ∈ taken) σ) r' (ev' cx' σ)) :
    Waits Q cx taken s0 b k k' σ0 ys S ev' r' s := by
  obtain ⟨hq, σ, t, rfl, hstays, hxs, hr⟩ := h
  exact ⟨hq, σ, t, rfl, hstays, hfits hxs, fun cx' hc => hf hc (hr cx' hc)⟩

/-! ### Single statements -/

lemma flat_scene (M : Setup) (cx : Context) (s0 : State) :
    Scene M (fun _ => True) (flatly cx) (fun _ => False) s0 s0.operands s0.frame.fn.start where
  strict := rfl
  lo_le := le_rfl
  ground := suffix_refl _
  watch _ _ _ _ _ _ := trivial
  calls := ⟨fun _ h => h.elim, fun h => h.elim, fun _ _ h => h.elim, fun h => h.elim⟩

namespace Stage

variable (S : Stage M Q cx taken ok lab s0)

include S

omit S in
lemma fails (hq : Q s) (h : Fails M (fun _ => True) (faithful M.program .fills) c w' s)
    (hw : SameWorld cx.mode.care w w') : Fails M Q (lowering cx.mode.care) c w s := by
  obtain ⟨-, c', s', hstep, ⟨rfl, -⟩, rfl⟩ := h
  exact ⟨hq, c, s', hstep, rfl, hw⟩

/-- The run of a statement that is no call. -/
lemma flat (st : Stmt) (scope : List String) (hconf : st.lift.Confined (fun _ => False) [] scope)
    (hscope : ∀ l ∈ scope, (M.program.labels[l]?).isSome)
    (hs : Site M.program s0 s0.frame.fn.start a (itemsOf st.lift))
    (hl : Level M.program s0 s0.operands a s0.operands)
    (hq : Q (s0.stand a σ s0.operands t)) {r : EStateM.Result Stop Env Unit}
    (h : Follows cx.mode.care (· ∈ taken) True (fun _ _ => True) (Stays taken k k' σ0) r
      (st.lift.eval (flatly cx) σ)) :
    Lands M Q n (lowers Q cx taken s0 M k k' σ0)
      (fun _ => Stood Q cx taken s0 (a + extent (itemsOf st.lift)) k k' σ0)
      (s0.stand a σ s0.operands t) r := by
  obtain ⟨i, s', hsteps, hm⟩ := follows_stmt (flat_scene M cx s0) (by simp) st.lift hconf hscope
    (ρ := σ) (t := t) hs hl
  obtain ⟨hsteps, hq'⟩ := keep_steps S.keep hsteps hq
  refine ⟨i, s', hsteps, ?_⟩
  cases r with
  | ok x ρ =>
    obtain ⟨y, σ', hr, -, ht, hF⟩ := h
    rw [hr] at hm
    obtain ⟨t', rfl⟩ := hm
    exact ⟨hq', σ', t', rfl, ht, hF⟩
  | error e ρ =>
    cases e with
    | fault c =>
      obtain ⟨σ', hr, hw⟩ := h
      rw [hr] at hm
      exact Stage.fails hq' hm hw
    | target c src =>
      obtain ⟨-, src', σ', hr, hw⟩ := h
      rw [hr] at hm
      exact fun _ => Stage.fails hq' hm.1 hw
    | goto l =>
      obtain ⟨-, σ', hr, ht, hF⟩ := h
      rw [hr] at hm
      obtain ⟨hi, b, S', t', hb, rfl, ⟨-, rfl⟩ | ⟨hesc, -⟩⟩ := hm
      · exact ⟨hi, b, hb, hq', σ', t', rfl, ht, hF⟩
      · cases hesc
    | leave vs =>
      obtain ⟨-, σ', hr, hw⟩ := h
      rw [hr] at hm
      obtain ⟨-, b, S', t', hstep, hsuf⟩ := hm
      exact ⟨hq', b, σ', S', t', hstep, hw, hsuf⟩
    | unset => trivial
    | exhausted => exact h.elim

end Stage

/-! ### Saved values -/

/-- A value that no code changes: a constant, or a register among `own` that is set. -/
inductive Settled (care : Care) (known own : String → Prop) (σ : Env) : Expr → Operand → Prop where
  | const {v o} : Stands care known o (.value v) → Settled care known own σ (.const v) o
  | temp {r v o} : own r → σ.regs.get? r = some v → Stands care known o (.reg r (some v)) →
    Settled care known own σ (.temp r) o

/-- A made register with a number up to `j`, or among `k + 1, …, k'`. -/
def Kept (taken : Taken) (j k k' : Nat) (r : String) : Prop :=
  r ∉ taken ∧ ∃ hint i, r = numbered hint i ∧ (i ≤ j ∨ k < i ∧ i ≤ k')

lemma Settled.stays (h : Settled care known own σ y o)
    (hown : ∀ r, own r → own' r ∧ σ'.regs.get? r = σ.regs.get? r) :
    Settled care known own' σ' y o := by
  cases h with
  | const ho => exact .const ho
  | temp hr hv ho => exact .temp (hown _ hr).1 ((hown _ hr).2.trans hv) ho

lemma settled_of_isFixed (hfix : Lowering.isFixed taken x = true) (hx : x.Fits known)
    (hknown : ∀ {r}, known r → Ready taken j τ r) (ht : Tracks cx.mode.care known τ σ) :
    ∃ o, x.lift.eval cx τ = .ok o τ ∧ Settled cx.mode.care known (Own taken j) σ x o := by
  cases x with
  | const v => exact ⟨.value v, rfl, .const (.of_word rfl rfl)⟩
  | temp r =>
    have hfree : r ∉ taken := fun hr => by
      rw [Lowering.isFixed, Std.TreeSet.mem_iff_contains.1 hr] at hfix
      cases hfix
    obtain ⟨ho, hv⟩ := (hknown hx).resolve_left hfree
    obtain ⟨v, hv⟩ := Option.isSome_iff_exists.1 hv
    refine ⟨.reg r (some v), ?_, .temp ho (ht.regs hx hv) (.of_word rfl rfl)⟩
    rw [Expr.lift, Structured.Expr.eval, Eval.readRegister, hv]
  | name l => exact hx.elim
  | mem addr => cases hfix
  | unop op x => cases hfix
  | binop op l r => cases hfix

lemma eval_moveTemp (cx : Context) (r : String) (e : Structured.Expr) :
    (Structured.Stmt.move (.temp r) e).eval cx = (do
      let v ← Eval.take cx.mode.care (← e.eval cx)
      Eval.setRegister r v) := by
  rw [Structured.Stmt.eval]
  simp

lemma Tracks.fill (hc : care ≠ .fills) (h : Tracks care known τ σ) (hr : τ.regs.get? r = none) :
    ∃ v σ', Eval.take .fills (.reg r none) σ = .ok v σ' ∧ Tracks care known τ σ' ∧
      ∀ m, m ≠ r → σ'.regs.get? m = σ.regs.get? m := by
  simp only [Eval.take, if_true]
  rcases fill_eq r σ with ⟨v, hv⟩ | ⟨v, f, -, hv⟩
  · exact ⟨v, σ, hv, h, fun _ _ => rfl⟩
  · have hother : ∀ m, m ≠ r → (σ.regs.set r v).get? m = σ.regs.get? m :=
      fun m hm => Registers.get?_set_of_ne _ _ hm
    refine ⟨v, _, hv, ⟨⟨h.world.alike.trans ⟨f, rfl⟩, fun hf => absurd hf hc⟩, ?_, ?_⟩, hother⟩
    · intro m w hm hw
      exact (hother m (fun he => by rw [he, hr] at hw; cases hw)).trans (h.regs hm hw)
    · exact fun hf => absurd hf hc

lemma exists_savesUnset
    (hs : Site M.program s0 s0.frame.fn.start a (itemsOf (.move (.temp reg) (.temp r))))
    (hreg : reg ∉ taken) (hr : σ.regs.get? r = none) :
    ∃ s', Steps M (fun _ => True) 2 (s0.stand a σ S t) s' ∧ SavesUnset M.program taken s' := by
  obtain ⟨hs12, hs3⟩ := Site.append hs
  obtain ⟨hs1, hs2⟩ := hs12.append
  have hstop := hs3.lt_stop
  have hcode := hs3.code
  have hstep1 := step_next (M := M) hs1.lo_le hs1.lt_stop hs1.code
    (exec_temp (ρ := σ) (S := S) (t := t) reg)
  have hstep2 := step_next (M := M) hs2.lo_le hs2.lt_stop hs2.code
    (exec_temp (ρ := σ) (S := S.push (.reg reg (σ.regs.get? reg))) (t := t) r)
  refine ⟨_, .head trivial hstep1 (.head trivial hstep2 (.refl _)), ?_, reg, r,
    .reg reg (σ.regs.get? reg) :: S.items, ?_, hreg, ?_⟩
  · simp only [State.stand_ip, State.stand_fn]
    simp only [itemsOfExpr, extent_append, extent] at hstop ⊢
    omega
  · simpa only [State.stand_ip, Int.toNat_natCast, itemsOfExpr, extent_append, extent,
      ← add_assoc] using hcode
  · rw [hr]
    rfl

namespace Stage

variable (S : Stage M Q cx taken ok lab s0) {known : String → Prop}

include S

lemma saveOne (hx : x.Fits known) (hknown : ∀ {r}, known r → Ready taken j τ r)
    (hreg : Fresh taken "lt" k reg k1) (hj : j ≤ k) (ht : Tracks cx.mode.care known τ σ)
    (hs : Site M.program s0 s0.frame.fn.start a (itemsOf (Stmt.moveTemp reg x).lift))
    (hl : Level M.program s0 s0.operands a s0.operands) (hq : Q (s0.stand a σ s0.operands t)) :
    Lands M Q n (lowers Q cx taken s0 M k k1 σ) (fun o τ' s => Q s ∧ Refills known τ τ' ∧ ∃ σ' t' v,
        s = s0.stand (a + extent (itemsOf (Stmt.moveTemp reg x).lift)) σ' s0.operands t' ∧
        Tracks cx.mode.care known τ' σ' ∧ Stays taken k k1 σ σ' ∧
        σ'.regs.get? reg = some v ∧ Stands cx.mode.care known o (.reg reg (some v)))
      (s0.stand a σ s0.operands t) (x.lift.eval cx τ) := by
  have hnot : ¬known reg := fun h => hreg.not_ready hj (hknown h)
  -- the made registers among the known ones are set, so filling leaves them alone
  have hstays : ∀ {σ'}, Refills known σ σ' → Stays taken k k1 σ σ' := by
    intro σ' h hint i hn _
    by_cases hr : known (numbered hint i)
    · obtain ⟨-, hv⟩ := (hknown hr).resolve_left hn
      obtain ⟨v, hv⟩ := Option.isSome_iff_exists.1 hv
      rw [ht.regs hr hv, h.keeps (ht.regs hr hv)]
    · exact h.other hr
  obtain ⟨i, s', hsteps, hm⟩ := follows_stmt (flat_scene M cx s0) (forall_mem_nil _)
    (.move (.temp reg) x.lift) (hx.confined _ _) (forall_mem_nil _) (ρ := σ) (t := t) hs hl
  obtain ⟨hsteps', hq'⟩ := keep_steps S.keep hsteps hq
  rw [eval_moveTemp] at hm
  have hleft := follows_plain cx (.inl rfl) S.reads (F := Refills known τ)
    (fun h h' => h.trans h') hx.plain (.refl τ) (.refl τ)
  have hright := follows_plain (flatly cx) (.inr rfl) S.reads (F := Refills known σ)
    (fun h h' => h.trans h') hx.plain ht (.refl σ)
  cases hr : x.lift.eval cx τ with
  | ok o τ' =>
    rw [hr] at hleft hright
    obtain ⟨_, _, ⟨⟩, -, -, hτ⟩ := hleft
    obtain ⟨o', σ1, hr', ho, ht1, hσ1⟩ := hright
    rw [bind_ok hr'] at hm
    refine ⟨i, s', hsteps', hq', hτ, ?_⟩
    have hset : ∀ {σ2 : Env} {v : Int32}, Eval.take .fills o' σ1 = .ok v σ2 →
        Tracks cx.mode.care known τ' σ2 → Stays taken k k1 σ σ2 →
        Stands cx.mode.care known o (.reg reg (some v)) → ∃ σ' t' v,
          s' = s0.stand (a + extent (itemsOf (Stmt.moveTemp reg x).lift)) σ' s0.operands t' ∧
          Tracks cx.mode.care known τ' σ' ∧ Stays taken k k1 σ σ' ∧
          σ'.regs.get? reg = some v ∧ Stands cx.mode.care known o (.reg reg (some v)) := by
      intro σ2 v htake ht2 hs2 hstand
      have htake' : Eval.take (flatly cx).mode.care o' σ1 = .ok v σ2 := htake
      rw [bind_ok htake'] at hm
      obtain ⟨t', rfl⟩ := hm
      exact ⟨_, t', v, rfl, ht2.setOwn hnot v, hs2.set_fresh hreg (le_refl k)
        (le_refl k1) v, Registers.get?_set_self _ _ _, hstand⟩
    cases hw : o'.word? with
    | some w =>
      refine hset (take_of_word hw σ1) ht1 (hstays hσ1) ?_
      refine ⟨fun hv => by rw [← hw]; exact ho.word hv, ho.known, fun he => (by cases he), ?_⟩
      intro hc r he
      rw [ho.unset hc he] at hw
      cases hw
    | none =>
      obtain ⟨r, rfl⟩ := exists_reg_of_word? hw
      obtain rfl := ho.back rfl
      obtain ⟨rfl, rfl, hnone⟩ := unset_of_eval hr
      obtain ⟨-, rfl, hnone'⟩ := unset_of_eval hr'
      by_cases hc : cx.mode.care = .fills
      · obtain ⟨s'', hsteps'', hsaves⟩ := exists_savesUnset (t := t) (S := s0.operands) hs
          hreg.free hnone'
        exact absurd hsaves (S.saves hc (keep_steps S.keep hsteps'' hq).2)
      · have htaken : r ∈ taken := (hknown (ho.known rfl)).resolve_right fun h => by
          rw [hnone] at h
          simp at h
        obtain ⟨v, σ2, htake, ht2, hother⟩ := ht1.fill hc hnone
        refine hset htake ht2 (fun hint i hn hi => ?_) ?_
        · have hne : numbered hint i ≠ r := fun he => hn (he ▸ htaken)
          exact hother _ hne
        · exact ⟨fun hv => (by cases hv), ho.known, fun he => (by cases he),
            fun hf => absurd hf hc⟩
  | error e τ' =>
    rw [hr] at hright
    obtain ⟨c, σ1, rfl, hr', hw⟩ | rfl := hright.of_error
    · rw [bind_error hr'] at hm
      exact ⟨i, s', hsteps', Stage.fails hq' hm hw⟩
    · exact .now trivial

/-- The run of the moves that save values. -/
lemma save (h : Saves taken xs k moves ys k') :
    ∀ {a : Nat} {σ τ : Env} {t : List Called}, j ≤ k → (∀ x ∈ xs, x.Fits known) →
      (∀ {r}, known r → Ready taken j τ r) → Tracks cx.mode.care known τ σ →
      Site M.program s0 s0.frame.fn.start a (itemsOfAll (moves.map Stmt.lift)) →
      Level M.program s0 s0.operands a s0.operands → Q (s0.stand a σ s0.operands t) →
      Lands M Q n (lowers Q cx taken s0 M k k' σ) (fun os τ' s => Q s ∧ ∃ σ' t',
          s = s0.stand (a + extent (itemsOfAll (moves.map Stmt.lift))) σ' s0.operands t' ∧
          Tracks cx.mode.care known τ' σ' ∧ Stays taken k k' σ σ' ∧
          List.Forall₂ (Settled cx.mode.care known (Kept taken j k k') σ') ys os)
        (s0.stand a σ s0.operands t) (Structured.Expr.evalAll cx (xs.map Expr.lift) τ) := by
  induction h with
  | nil =>
    intro a σ τ t hj hxs hknown ht hs hl hq
    exact .done ⟨hq, σ, t, rfl, ht, .refl σ, .nil⟩
  | @keep x xs k moves ys k' hfix h ih =>
    intro a σ τ t hj hxs hknown ht hs hl hq
    obtain ⟨hx, hxs⟩ := forall_mem_cons.1 hxs
    obtain ⟨o, ho, hsettled⟩ := settled_of_isFixed hfix hx hknown ht
    rw [map_cons, Structured.Expr.evalAll, bind_ok ho]
    refine (ih hj hxs hknown ht hs hl hq).bind (.refl _) ?_
    rintro os τ' _ - ⟨hq', σ', t', rfl, ht', hstays, hos⟩
    refine .done ⟨hq', σ', t', rfl, ht', hstays, .cons (hsettled.stays fun r hr => ?_) hos⟩
    refine ⟨?_, hr.stays hstays hj⟩
    obtain ⟨hn, hint, i, rfl, hi⟩ := hr
    exact ⟨hn, hint, i, rfl, .inl hi⟩
  | @save x xs k reg k1 moves ys k' _ hreg h ih =>
    intro a σ τ t hj hxs hknown ht hs hl hq
    have hlt := hreg.lt
    have hle := h.le
    obtain ⟨hx, hxs⟩ := forall_mem_cons.1 hxs
    rw [map_cons, itemsOfAll] at hs
    obtain ⟨hs1, hs2⟩ := hs.append
    rw [map_cons (f := Expr.lift), Structured.Expr.evalAll]
    refine (S.saveOne hx hknown hreg hj ht hs1 hl hq).bind (lowers_le (.refl σ) (le_refl k) hle) ?_
    rintro o τ1 _ - ⟨hq1, hτ1, σ1, t1, v, rfl, ht1, hstays1, hv, ho⟩
    refine (ih (by omega) hxs (fun hr => (hknown hr).refills hτ1) ht1 hs2 (hl.stmt hs1.placed)
      hq1).bind (lowers_le (hstays1.widen (le_refl k) hle) (by omega) (le_refl k')) ?_
    rintro os τ' _ - ⟨hq', σ', t', rfl, ht', hstays', hos⟩
    refine .done ⟨hq', σ', t', ?_, ht', hstays1.append hstays' (by omega) hle, ?_⟩
    · rw [map_cons, itemsOfAll, extent_append, add_assoc]
    · refine .cons (.temp ⟨hreg.free, "lt", k1, hreg.eq, .inr ⟨hlt, hle⟩⟩ ?_ ho) ?_
      · rw [hreg.own.stays hstays' (le_refl k1), hv]
      · refine hos.imp fun y o hy => hy.stays fun r hr => ⟨?_, rfl⟩
        obtain ⟨hn, hint, i, rfl, hi⟩ := hr
        exact ⟨hn, hint, i, rfl, by omega⟩

/-! ### Calls -/

variable {f : String} {xs : List Expr} {r : EStateM.Result Stop Env (List Operand)}
  {fin : α → Env → State → Prop} {next : List Int32 → Eval α} (hf : ok f)
  (hxs : ∀ x ∈ xs, x.Fits known)
  (h : Follows cx.mode.care (· ∈ taken) False (List.Forall₂ (Stands cx.mode.care (· ∈ taken)))
    (Stays taken k k' σ0) r (Structured.Expr.evalAll (flatly cx) (xs.map Expr.lift) σ))

include hf hxs h

/-- The run of a call: target, arguments, call node, and what is done with the results. -/
lemma call {node : Node} {B : Operands} (hn : IsCall node f xs.length)
    (hs : Site M.program s0 s0.frame.fn.start a
      (itemsOfExpr (.name f) ++ itemsOfExprs (xs.map Expr.lift) ++ [.node node]))
    (hl : Level M.program s0 s0.operands a B) (hq : Q (s0.stand a σ B t))
    (hnext : ∀ {results ρ' σ' t' s}, Q s → step M s = returned node results
        (s0.stand (a + 1 + extent (itemsOfExprs (xs.map Expr.lift))) σ' B t') →
      Tracks cx.mode.care (· ∈ taken) ρ' σ' → Stays taken k k' σ0 σ' →
      Lands M Q cx.budget (lowers Q cx taken s0 M k k' σ0) fin s
        (next results { ρ' with regs := ρ'.regs.setAll retReg 1 results })) :
    Lands M Q cx.budget (lowers Q cx taken s0 M k k' σ0) fin (s0.stand a σ B t)
      (after r fun os => Eval.takeAll cx.mode.care os >>= fun vs =>
        Eval.callBy cx.call f vs >>= next) := by
  obtain ⟨hs12, hs3⟩ := hs.append
  obtain ⟨hs1, hs2⟩ := hs12.append
  rw [extent_append, ← add_assoc] at hs3
  have hstep := step_next (M := M) hs1.lo_le hs1.lt_stop hs1.code
    (exec_name (ρ := σ) (S := B) (t := t) f)
  refine .step hq hstep ?_
  obtain ⟨i, s', hsteps, hm⟩ := follows_exprs (flat_scene M cx s0) (forall_mem_nil _)
    (xs.map Expr.lift) (confinedAll_lift _ _ hxs) (ρ := σ) (t := t) hs2
    (hl.expr hs1.placed (o := .symbol f M.program.labels[f]?))
  obtain ⟨hsteps, hq'⟩ := keep_steps S.keep hsteps (S.keep hq hstep)
  cases r with
  | ok os ρ1 =>
    obtain ⟨os', σ1, hr, hos, ht1, hσ1⟩ := h
    rw [hr] at hm
    obtain ⟨hlen, t1, rfl⟩ := hm
    refine .after hsteps ?_
    have htake := follows_takeAll (show Grants cx.mode.care .fills from .inr rfl)
      (F := Stays taken k k' σ0)
      (fun h h' => h.trans h'.stays) ht1 hσ1 hos
    show Lands _ _ _ _ _ _ ((Eval.takeAll cx.mode.care os >>= fun vs =>
      Eval.callBy cx.call f vs >>= next) ρ1)
    cases hv : Eval.takeAll cx.mode.care os ρ1 with
    | ok vs ρ2 =>
      rw [hv] at htake
      obtain ⟨_, σ2, hv', rfl, ht2, hσ2⟩ := htake
      rw [bind_ok hv]
      have hn' : IsCall node f os'.length := by rwa [hlen, length_map]
      refine Lands.bind (?_ : Lands M Q _ (lowers Q cx taken s0 M k k' σ0) (fun results ρ3 s =>
        Q s ∧ ∃ w w' t', SameWorld cx.mode.care w w' ∧ step M s = returned node results (s0.stand
            (a + 1 + extent (itemsOfExprs (xs.map Expr.lift))) { σ2 with world := w' } B t') ∧
          ρ3 = { regs := ρ2.regs.setAll retReg 1 results, world := w }) _ _) (.refl _) ?_
      · refine Lands.callBy (S.calls.lands hf hs3.lo_le hs3.lt_stop hs3.code hn' hv' ht2.world hq')
          id (fun htarget hcalm => (htarget hcalm).1) id ?_
        rintro results w s ⟨hq3, w', t', hw, hstep⟩
        exact ⟨hq3, w, w', t', hw, hstep, rfl⟩
      · rintro results _ s - ⟨hq3, w, w', t', hw, hstep, rfl⟩
        exact hnext hq3 hstep (ht2.withWorld hw) hσ2
    | error e ρ2 =>
      rw [bind_error hv]
      obtain ⟨rfl, -⟩ := unset_of_takeAll_error hv
      exact .now trivial
  | error e ρ1 =>
    obtain ⟨c, σ1, rfl, hr, hw⟩ | rfl := h.of_error
    · rw [hr] at hm
      exact ⟨i, s', hsteps, Stage.fails hq' hm hw⟩
    · exact .now trivial

lemma callInto {dest : String} (hdest : dest ≠ "")
    (hs : Site M.program s0 s0.frame.fn.start a (itemsOf (Stmt.call 0 dest (.name f) xs).lift))
    (hl : Level M.program s0 s0.operands a s0.operands) (hq : Q (s0.stand a σ s0.operands t))
    (hnext : ∀ {results : List Int32} {ρ' σ' σ1 : Env} {t' : List Called},
      σ1 = { σ' with regs := (σ'.regs.setAll retReg 1 results).set dest (results.headD 0) } →
      Q (s0.stand (a + extent (itemsOf (Stmt.call 0 dest (.name f) xs).lift)) σ1 s0.operands t') →
      Tracks cx.mode.care (· ∈ taken) ρ' σ' → Stays taken k k' σ0 σ' →
      Lands M Q cx.budget (lowers Q cx taken s0 M k k' σ0) fin
        (s0.stand (a + extent (itemsOf (Stmt.call 0 dest (.name f) xs).lift)) σ1 s0.operands t')
        (next results { ρ' with regs := ρ'.regs.setAll retReg 1 results })) :
    Lands M Q cx.budget (lowers Q cx taken s0 M k k' σ0) fin (s0.stand a σ s0.operands t)
      (after r fun os => Eval.takeAll cx.mode.care os >>= fun vs =>
        Eval.callBy cx.call f vs >>= next) := by
  have hlift : (Stmt.call 0 dest (.name f) xs).lift =
      .move (.temp dest) (.call (.name f) (xs.map Expr.lift)) := by
    simp [Stmt.lift, Expr.lift, hdest]
  rw [hlift] at hs hnext
  obtain ⟨hs12, hs3⟩ := Site.append hs
  obtain ⟨hs1, hs2⟩ := hs12.append
  have hstep := step_next (M := M) hs1.lo_le hs1.lt_stop hs1.code
    (exec_temp (ρ := σ) (S := s0.operands) (t := t) dest)
  have hn : IsCall (.expr (.call (.name f) (xs.map Expr.lift))) f xs.length :=
    .inl ⟨_, rfl, by simp⟩
  refine .step hq hstep (S.call hf hxs h hn hs2 (hl.expr hs1.placed) (S.keep hq hstep) ?_)
  intro results ρ' σ' t' s hq' hstep' ht' hst'
  rw [returned_expr] at hstep'
  have haddr : a + extent (itemsOfExpr (.temp dest) ++
      itemsOfExpr (.call (.name f) (xs.map Expr.lift))) =
      a + 1 + 1 + extent (itemsOfExprs (xs.map Expr.lift)) + 1 := by
    simp only [itemsOfExpr, extent_append, extent]
    omega
  rw [haddr] at hs3
  have htake : Eval.take .fills (.value (results.headD 0))
      { σ' with regs := σ'.regs.setAll retReg 1 results } =
      .ok (results.headD 0) { σ' with regs := σ'.regs.setAll retReg 1 results } := rfl
  have hmove := step_next (M := M) hs3.lo_le hs3.lt_stop hs3.code
    (exec_move_temp (S := s0.operands) (t := t') (r := dest) (u := σ.regs.get? dest) htake)
  have hend : a + extent (itemsOf (.move (.temp dest) (.call (.name f) (xs.map Expr.lift)))) =
      a + 1 + 1 + extent (itemsOfExprs (xs.map Expr.lift)) + 1 + 1 := by
    simp only [itemsOf, itemsOfExpr, extent_append, extent]
    omega
  have hq1 := S.keep hq' hstep'
  rw [hend] at hnext
  exact .step hq' hstep' (.step hq1 hmove (hnext rfl (S.keep hq1 hmove) ht' hst'))

end Stage

end

end Flat

end TreeMachine
