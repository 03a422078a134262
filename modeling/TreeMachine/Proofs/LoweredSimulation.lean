import TreeMachine.Proofs.LoweredRuns

/-!
# Lowered code does what it comes from

By induction on the rules of lowering: the machine runs the code of an expression, and comes
to where its value waits; it runs the code of a statement, and comes to where the next one
starts.
-/

open List

namespace TreeMachine.Flat

open Machine
open Lowering
open Structured
open Linear

variable {care : Care} {own : String → Prop} {o : Operand} {os : List Operand} {y : Expr}
  {f : String} {addr src : Structured.Expr}

/-! ### Code that brings no statements -/

section

variable {taken : Taken} {ok lab : String → Prop}

lemma Plain.eval_of_isInert (h : Plain known e x) (hx : isInert x = true) (cx : Context) (ρ : Env)
    (hc : cx.mode.care ≠ .reads) : ∃ o, e.eval cx ρ = .ok o ρ := by
  induction h with
  | const v => exact ⟨_, rfl⟩
  | @temp r _ =>
    rw [Structured.Expr.eval, Eval.readRegister]
    cases ρ.regs.get? r with
    | some v => exact ⟨_, rfl⟩
    | none =>
      simp only [hc, if_false]
      exact ⟨_, rfl⟩
  | mem _ _ => cases hx
  | unop _ _ => cases hx
  | binop _ _ _ _ _ => cases hx
  | eseq hs _ ih =>
    rw [Structured.Expr.eval, bind_ok (hs cx ρ hc)]
    exact ih hx

lemma idle_seq (h : ∀ s ∈ ss, Idle s) : Idle (.seq ss) := by
  intro cx ρ hc
  have hpass : Structured.Stmt.evalSeq cx ss none ρ = .ok none ρ := by
    induction ss with
    | nil => rfl
    | cons s ss ih =>
      obtain ⟨hs, hss⟩ := forall_mem_cons.1 h
      have hseek : Eval.seek (s.eval cx) ρ = .ok none ρ := by rw [Eval.seek, hs cx ρ hc]
      rw [Structured.Stmt.evalSeq, bind_ok hseek]
      exact ih hss
  rw [Structured.Stmt.eval, Eval.loop, bind_ok hpass]
  rfl

mutual

lemma plain_expr {e k pre x k'} :
    LowersExpr taken ok lab e k pre x k' → pre = [] → Plain (· ∈ taken) e x
  | .const, _ => .const _
  | .temp hr, _ => .temp hr
  | .mem h, hn => .mem (plain_expr h hn)
  | .binop hop h, hn => by
    obtain ⟨zs, hzs, hall⟩ := plain_all h hn
    rw [nil_append] at hzs
    subst hzs
    cases hall with
    | cons hx hys =>
      cases hys with
      | cons hy _ => exact .binop hop hx hy
  | .unop h, hn => .unop (plain_expr h hn)
  | .call _ _ _, hn => by simp at hn
  | .eseq hs he, hn =>
    .eseq (idle_stmt hs (append_eq_nil_iff.1 hn).1) (plain_expr he (append_eq_nil_iff.1 hn).2)

lemma plain_all {xs es k code ys k'} : LowersAll taken ok lab xs es k code ys k' → code = [] →
    ∃ zs, ys = xs ++ zs ∧ List.Forall₂ (Plain (· ∈ taken)) es zs
  | .nil, _ => ⟨[], by simp, .nil⟩
  | .cons he hj h, hn => by
    obtain ⟨hn, hcode⟩ := append_eq_nil_iff.1 hn
    obtain ⟨-, hpre⟩ := append_eq_nil_iff.1 hn
    obtain ⟨zs, rfl, hzs⟩ := plain_all h hcode
    have hx := plain_expr he hpre
    cases hj with
    | plain => exact ⟨_, by simp, .cons hx hzs⟩
    | after hne _ => exact absurd hpre hne

lemma idle_stmt {s k code k'} : LowersStmt taken ok lab s k code k' → code = [] → Idle s
  | .skip, _ => fun _ _ _ => rfl
  | .label, hn => by cases hn
  | .seq h, hn => idle_seq (idle_stmts h hn)
  | .moveTemp _ _, hn => by simp at hn
  | .moveCall _ _ _, hn => by simp at hn
  | .moveMem _, hn => by simp at hn
  | .expCall _ _, hn => by simp at hn
  | .drop _ hx h, hn => by
    intro cx ρ hc
    obtain ⟨o, ho⟩ := (plain_expr h hn).eval_of_isInert hx cx ρ hc
    rw [Structured.Stmt.eval, bind_ok ho]
    rfl
  | .exp _ _ _, hn => by simp at hn
  | .jump _, hn => by cases hn
  | .cjump _ _ _, hn => by simp at hn
  | .ret _, hn => by simp at hn
  | .call _ _, hn => by simp at hn

lemma idle_stmts {ss k codes k'} :
    LowersStmts taken ok lab ss k codes k' → codes.flatten = [] → ∀ s ∈ ss, Idle s
  | .nil, _ => by simp
  | .cons h hs, hn => by
    rw [flatten_cons, append_eq_nil_iff] at hn
    exact forall_mem_cons.2 ⟨idle_stmt h hn.1, idle_stmts hs hn.2⟩

end

lemma nil_of_calm : (e : Structured.Expr) → LowersExpr taken ok lab e k pre x k' → e.Calm → pre = []
  | .const _, h, _ => by cases h; rfl
  | .temp _, h, _ => by cases h; rfl
  | .name _, h, _ => by cases h
  | .mem e, h, hc => by
    cases h with
    | mem h => exact nil_of_calm e h hc
  | .binop _ l r, h, hc => by
    cases h with
    | binop _ h =>
      obtain ⟨pre, x, k1, pre', y, k2, moves, zs, hl, hr, hj, rfl, -⟩ := h.pair
      obtain rfl := nil_of_calm l hl hc.1
      obtain rfl := nil_of_calm r hr hc.2
      cases hj with
      | plain => rfl
      | after hne _ => exact absurd rfl hne
  | .unop _ e, h, hc => by
    cases h with
    | unop h => exact nil_of_calm e h hc
  | .call _ _, _, hc => hc.elim
  | .eseq _ _, _, hc => hc.elim

end

/-! ### What is shown -/

section

variable (M : Setup) (Q : State → Prop) (cx : Context) (taken : Taken) (s0 : State)

abbrev WaitsFor (b k k' : Nat) (σ0 : Env) (x : Expr) :
    EStateM.Result Stop Env Operand → State → Prop :=
  Waits Q cx taken s0 b k k' σ0 [x] (Stands cx.mode.care (· ∈ taken)) fun cx' => x.lift.eval cx'

abbrev WaitsForAll (b k k' : Nat) (σ0 : Env) (xs : List Expr) :
    EStateM.Result Stop Env (List Operand) → State → Prop :=
  Waits Q cx taken s0 b k k' σ0 xs (List.Forall₂ (Stands cx.mode.care (· ∈ taken))) fun cx' =>
    Structured.Expr.evalAll cx' (xs.map Expr.lift)

def Comes {α : Type} (k k' : Nat) (σ0 : Env) (W : EStateM.Result Stop Env α → State → Prop)
    (s : State) (r : EStateM.Result Stop Env α) : Prop :=
  Lands M Q cx.budget (pends (lowers Q cx taken s0 M k k' σ0) W) (fun x ρ s => W (.ok x ρ) s) s r

def RunsExpr (e : Structured.Expr) (k : Nat) (pre : List Stmt) (x : Expr) (k' : Nat) : Prop :=
  ∀ ⦃a ρ σ t⦄, Site M.program s0 s0.frame.fn.start a (itemsOfAll (pre.map Stmt.lift)) →
    Level M.program s0 s0.operands a s0.operands → Q (s0.stand a σ s0.operands t) →
    Tracks cx.mode.care (· ∈ taken) ρ σ →
    Comes M Q cx taken s0 k k' σ
      (WaitsFor Q cx taken s0 (a + extent (itemsOfAll (pre.map Stmt.lift))) k k' σ x)
      (s0.stand a σ s0.operands t) (e.eval cx ρ)

/-- The code of siblings runs while the values of those before them wait. -/
def RunsAll (xs : List Expr) (es : List Structured.Expr) (k : Nat) (code : List Stmt)
    (ys : List Expr) (k' : Nat) : Prop :=
  ∀ ⦃a i σ0 r s⦄, i ≤ k → Site M.program s0 s0.frame.fn.start a (itemsOfAll (code.map Stmt.lift)) →
    Level M.program s0 s0.operands a s0.operands → WaitsForAll Q cx taken s0 a i k σ0 xs r s →
    Comes M Q cx taken s0 i k' σ0
      (WaitsForAll Q cx taken s0 (a + extent (itemsOfAll (code.map Stmt.lift))) i k' σ0 ys) s
      (after r fun os => do
        let os' ← Structured.Expr.evalAll cx es
        return os ++ os')

def RunsStmt (st : Structured.Stmt) (k : Nat) (code : List Stmt) (k' : Nat) : Prop :=
  ∀ ⦃a ρ σ t⦄, Site M.program s0 s0.frame.fn.start a (itemsOfAll (code.map Stmt.lift)) →
    Level M.program s0 s0.operands a s0.operands → Q (s0.stand a σ s0.operands t) →
    Tracks cx.mode.care (· ∈ taken) ρ σ →
    Lands M Q cx.budget (lowers Q cx taken s0 M k k' σ)
      (fun _ => Stood Q cx taken s0 (a + extent (itemsOfAll (code.map Stmt.lift))) k k' σ)
      (s0.stand a σ s0.operands t) (st.eval cx ρ)

end

section

variable {M : Setup} {Q : State → Prop} {cx : Context} {taken : Taken} {ok lab : String → Prop}
  {s0 s : State} {a b i k k1 k2 k' : Nat} {σ0 σ ρ : Env} {t : List Called}
  {e : Structured.Expr} {es : List Structured.Expr} {x : Expr} {xs ys zs : List Expr}
  {pre moves code : List Stmt}

lemma le_pends {α : Type} (X : Exits Env) (W : EStateM.Result Stop Env α → State → Prop) :
    X.Le (pends X W) :=
  ⟨id, id, .inl, id, id⟩

lemma Exits.Le.trans {X Y Z : Exits Env} (h : X.Le Y) (h' : Y.Le Z) : X.Le Z :=
  ⟨h'.go ∘ h.go, h'.home ∘ h.home, h'.fault ∘ h.fault, h'.target ∘ h.target, h'.unset ∘ h.unset⟩

lemma Comes.widen {α : Type} {W W' : EStateM.Result Stop Env α → State → Prop}
    {r : EStateM.Result Stop Env α} (h : Comes M Q cx taken s0 k1 k2 σ1 W s r)
    (hle : (lowers Q cx taken s0 M k1 k2 σ1).Le (lowers Q cx taken s0 M k k' σ))
    (hW : ∀ {r s}, W r s → W' r s) : Comes M Q cx taken s0 k k' σ W' s r :=
  Lands.imp h ⟨hle.go, hle.home, fun hf => hf.imp hle.fault hW, hle.target, fun _ => trivial⟩
    fun _ _ _ _ hw => hW hw

/-! ### Expressions -/

lemma RunsExpr.widen (h : RunsExpr M Q cx taken s0 e k pre x k1) (hk : k1 ≤ k') :
    RunsExpr M Q cx taken s0 e k pre x k' := by
  intro a ρ σ t hs hl hq ht
  exact (h hs hl hq ht).widen (lowers_le (.refl σ) (le_refl k) hk) fun hw =>
    hw.widen (.refl σ) (le_refl k) hk

lemma Stage.plain (S : Stage M Q cx taken ok lab s0) (he : Plain (· ∈ taken) e x) :
    RunsExpr M Q cx taken s0 e k [] x k := by
  intro a ρ σ t hs hl hq ht
  refine Waits.lands ⟨hq, σ, t, rfl, .refl σ, ?_, fun cx' hc => ?_⟩
  · simpa using he.fits.imp fun _ => .inl
  · exact follows_plain _ hc S.reads (fun h h' => h.trans h') he ht (.refl σ)

lemma RunsExpr.mem (h : RunsExpr M Q cx taken s0 e k pre x k') :
    RunsExpr M Q cx taken s0 (.mem e) k pre (.mem x) k' := by
  intro a ρ σ t hs hl hq ht
  rw [Structured.Expr.eval]
  refine resume (h hs hl hq ht) (le_pends _ _) fun hw => ?_
  refine Waits.lands (hw.next (by simp [Expr.Fits]) fun hc hr => ?_)
  rw [Expr.lift, Structured.Expr.eval, bind_eq_after]
  refine hr.bind fun ho ht hσ => (follows_take hc (fun h h' => h.trans h') ht hσ ho).andThen ?_
  rintro a _ ρ1 σ1 rfl ht1 hσ1
  refine (follows_load ht1 hσ1 a).andThen ?_
  rintro v _ ρ2 σ2 rfl ht2 hσ2
  exact .ok (.of_word rfl rfl) ht2 hσ2

lemma RunsExpr.unop (h : RunsExpr M Q cx taken s0 e k pre x k') :
    RunsExpr M Q cx taken s0 (.unop op e) k pre (.unop op x) k' := by
  intro a ρ σ t hs hl hq ht
  rw [Structured.Expr.eval]
  refine resume (h hs hl hq ht) (le_pends _ _) fun hw => ?_
  refine Waits.lands (hw.next (by simp [Expr.Fits]) fun hc hr => ?_)
  rw [Expr.lift, Structured.Expr.eval, bind_eq_after]
  refine hr.bind fun ho ht hσ => (follows_take hc (fun h h' => h.trans h') ht hσ ho).andThen ?_
  rintro v _ ρ1 σ1 rfl ht1 hσ1
  exact .ok (.of_word rfl rfl) ht1 hσ1

lemma RunsExpr.eseq (h : RunsStmt M Q cx taken s0 st k code k1)
    (he : RunsExpr M Q cx taken s0 e k1 pre x k') (hk : k ≤ k1) (hk' : k1 ≤ k') :
    RunsExpr M Q cx taken s0 (.eseq st e) k (code ++ pre) x k' := by
  intro a ρ σ t hs hl hq ht
  rw [map_append, itemsOfAll_append] at hs ⊢
  obtain ⟨hs1, hs2⟩ := hs.append
  rw [Structured.Expr.eval]
  refine (h hs1 hl hq ht).bind
    (Exits.Le.trans (lowers_le (.refl σ) (le_refl k) hk') (le_pends _ _)) ?_
  rintro _ ρ1 _ - ⟨hq1, σ1, t1, rfl, ht1, hstays⟩
  have hstays' := hstays.widen (le_refl k) hk'
  refine (he hs2 (hl.stmts hs1.placed) hq1 ht1).widen (lowers_le hstays' hk (le_refl k'))
    fun hw => ?_
  rw [extent_append, ← add_assoc]
  exact hw.widen hstays' hk (le_refl k')

/-! ### Siblings -/

lemma evalAll_concat (cx : Context) (es : List Structured.Expr) (e : Structured.Expr) :
    Structured.Expr.evalAll cx (es ++ [e]) = (do
      let os ← Structured.Expr.evalAll cx es
      let o ← e.eval cx
      return os ++ [o]) := by
  induction es with
  | nil => simp [Structured.Expr.evalAll]
  | cons e' es ih => simp [Structured.Expr.evalAll, ih]

lemma RunsAll.nil : RunsAll M Q cx taken s0 xs [] k [] xs k := by
  intro a i σ0 r s hi hs hl hw
  have hpure : (fun os => do
      let os' ← Structured.Expr.evalAll cx []
      return os ++ os' : List Operand → Eval (List Operand)) = pure := by
    funext os
    simp [Structured.Expr.evalAll]
  rw [hpure, after_pure]
  exact Waits.lands hw

lemma RunsAll.plain (S : Stage M Q cx taken ok lab s0) (he : Plain (· ∈ taken) e x)
    (h : RunsAll M Q cx taken s0 (xs ++ [x]) es k1 code ys k') (hk : k ≤ k1) :
    RunsAll M Q cx taken s0 xs (e :: es) k code ys k' := by
  intro a i σ0 r s hi hs hl hw
  have hw' : WaitsForAll Q cx taken s0 a i k σ0 (xs ++ [x])
      (after r fun os => e.eval cx >>= fun o => pure (os ++ [o])) s := by
    refine hw.next ?_ fun hc hr => ?_
    · intro σ hxs
      exact forall_mem_append.2 ⟨hxs, by simpa using he.fits.imp fun _ => .inl⟩
    · rw [map_append, map_singleton, evalAll_concat, bind_eq_after]
      refine hr.bind fun hos ht hσ => ?_
      refine (follows_plain _ hc S.reads (fun h h' => h.trans h') he ht hσ).andThen
        fun ho ht1 hσ1 => ?_
      exact .ok (rel_append hos (.cons ho .nil)) ht1 hσ1
  have hrun := h (le_trans hi hk) hs hl (hw'.widen (.refl σ0) (le_refl i) hk)
  rw [after_after] at hrun
  simpa only [Structured.Expr.evalAll, bind_assoc, pure_bind, append_assoc,
    singleton_append] using hrun

lemma Settled.eval (h : Settled care known own σ x o) :
    ∃ o' v, (∀ cx : Context, x.lift.eval cx σ = .ok o' σ) ∧ o'.word? = some v ∧
      Stands care known o o' := by
  cases h with
  | const ho => exact ⟨_, _, fun _ => rfl, rfl, ho⟩
  | temp _ hv ho =>
    refine ⟨_, _, fun cx => ?_, rfl, ho⟩
    rw [Expr.lift, Structured.Expr.eval, Eval.readRegister, hv]

lemma evalAll_settled (h : List.Forall₂ (Settled care known own σ) zs os) :
    ∃ os', (∀ cx : Context, Structured.Expr.evalAll cx (zs.map Expr.lift) σ = .ok os' σ) ∧
      List.Forall₂ (Stands care known) os os' := by
  induction h with
  | nil => exact ⟨[], fun _ => rfl, .nil⟩
  | @cons z o zs os hz _ ih =>
    obtain ⟨os', hos', hall⟩ := ih
    obtain ⟨o', v, ho', -, hstand⟩ := hz.eval
    refine ⟨o' :: os', fun cx => ?_, .cons hstand hall⟩
    rw [map_cons, Structured.Expr.evalAll, bind_ok (ho' cx), bind_ok (hos' cx)]
    rfl

lemma Settled.fits (h : Settled care known own σ x o) (hown : ∀ r, own r → Own taken k r) :
    x.Fits (Ready taken k σ) := by
  cases h with
  | const _ => trivial
  | temp hr hv _ => exact .inr ⟨hown _ hr, by simp [hv]⟩

lemma stands_trans (h : List.Forall₂ (Stands care known) os os1)
    (h' : List.Forall₂ (Stands care known') os1 os2) : List.Forall₂ (Stands care known) os os2 := by
  induction h generalizing os2 with
  | nil => cases h'; exact .nil
  | cons ho _ ih =>
    cases h' with
    | cons ho' hos' => exact .cons (ho.trans ho') (ih hos')

lemma Waits.settled (h : WaitsFor Q cx taken s0 b k k1 σ0 x r s)
    (hos : List.Forall₂ (Stands cx.mode.care (· ∈ taken)) os os1)
    (hz : List.Forall₂ (Settled cx.mode.care known own σ0) zs os1)
    (hown : ∀ r, own r → Own taken k' r ∧ ∀ {σ}, Stays taken k k1 σ0 σ →
      σ.regs.get? r = σ0.regs.get? r) (hk : k1 ≤ k') :
    WaitsForAll Q cx taken s0 b k k' σ0 (zs ++ [x]) (after r fun o => pure (os ++ [o])) s := by
  obtain ⟨hq, σ, t, rfl, hstays, hx, hf⟩ := h
  have hz' : List.Forall₂ (Settled cx.mode.care known (Own taken k') σ) zs os1 :=
    hz.imp fun _ _ hy => hy.stays fun r hr => ⟨(hown r hr).1, (hown r hr).2 hstays⟩
  obtain ⟨os2, heval, hos2⟩ := evalAll_settled hz'
  refine ⟨hq, σ, t, rfl, hstays.widen (le_refl k) hk, ?_, fun cx' hc => ?_⟩
  · refine forall_mem_append.2 ⟨fun z hmem => ?_, fun y hy => ?_⟩
    · obtain ⟨o, -, ho⟩ := exists_of_forall₂ hz'.flip hmem
      exact Settled.fits ho fun _ h => h
    · exact (hx y hy).imp fun _ hr => hr.mono hk
  · show Follows _ _ _ _ _ _ (Structured.Expr.evalAll cx' ((zs ++ [x]).map Expr.lift) σ)
    rw [map_append, map_singleton, evalAll_concat, bind_ok (heval cx'), bind_eq_after]
    refine (hf cx' hc).bind fun ho ht hσ => ?_
    exact .ok (rel_append (stands_trans hos hos2) (.cons ho .nil)) ht hσ

lemma Fails.trans (h : Fails M Q (lowering care) c w' s) (hw : SameWorld care w w') :
    Fails M Q (lowering care) c w s := by
  obtain ⟨hq, c', s', hstep, hc, hw'⟩ := h
  exact ⟨hq, c', s', hstep, hc, hw.trans hw'⟩

lemma RunsAll.saved (S : Stage M Q cx taken ok lab s0)
    (he : RunsExpr M Q cx taken s0 e k pre x k1) (hsv : Saves taken xs k1 moves zs k2)
    (h : RunsAll M Q cx taken s0 (zs ++ [x]) es k2 code ys k') (hk : k ≤ k1) (hk' : k2 ≤ k') :
    RunsAll M Q cx taken s0 xs (e :: es) k (moves ++ pre ++ code) ys k' := by
  have hle := hsv.le
  intro a i σ0 r s hi hs hl ⟨hq, σ, t, hs', hstays, hxs, hf⟩
  subst hs'
  rw [map_append, map_append, itemsOfAll_append, itemsOfAll_append] at hs ⊢
  obtain ⟨hs12, hs3⟩ := hs.append
  obtain ⟨hs1, hs2⟩ := hs12.append
  have hl1 := hl.stmts hs1.placed
  have hl2 := hl1.stmts hs2.placed
  rw [extent_append, ← add_assoc] at hs3
  rw [extent_append, extent_append, ← add_assoc, ← add_assoc]
  have hf := hf cx (.inl rfl)
  have hsave := S.save (n := cx.budget) hsv hk hxs (fun hr => hr) (.refl σ) hs1 hl hq
  obtain ⟨m, s1, hsteps, hm⟩ := hsave
  cases r with
  | ok os ρ =>
    obtain ⟨os1, σ1, hr, hos, ht, -⟩ := hf
    have hr : Structured.Expr.evalAll cx (xs.map Expr.lift) σ = .ok os1 σ1 := hr
    rw [hr] at hm
    obtain ⟨hq2, σ2, t2, rfl, ht2, hstays2, hz⟩ := hm
    refine .after hsteps ?_
    have ht2 : Tracks cx.mode.care (· ∈ taken) ρ σ2 := ht.trans ht2 fun _ => .inl
    have hstays0 : Stays taken i k2 σ0 σ2 :=
      (hstays.widen (le_refl i) (by omega)).trans (hstays2.widen (by omega) (le_refl k2))
    have hstays' := hstays0.widen (le_refl i) hk'
    have heval : (after (EStateM.Result.ok os ρ) fun os => do
        let os' ← Structured.Expr.evalAll cx (e :: es)
        return os ++ os' : EStateM.Result Stop Env (List Operand)) = (e.eval cx >>= fun o => do
        let os' ← Structured.Expr.evalAll cx es
        return (os ++ [o]) ++ os' : Eval (List Operand)) ρ := by
      simp only [Flat.after, Structured.Expr.evalAll, bind_assoc, pure_bind, append_assoc,
        singleton_append]
    rw [heval]
    refine resume (he hs2 hl1 hq2 ht2)
      (Exits.Le.trans (lowers_le hstays' (by omega) (by omega)) (le_pends _ _)) ?_
    intro r1 s2 hw
    -- the code of the sibling sets other registers than those that the values were saved in
    have hown : ∀ r, Kept taken k k1 k2 r → Own taken k2 r ∧ ∀ {σ},
        Stays taken k k1 σ2 σ → σ.regs.get? r = σ2.regs.get? r := by
      rintro r ⟨hn, hint, n, rfl, hnum⟩
      exact ⟨⟨hn, hint, n, rfl, by omega⟩, fun hst => hst hint n hn (by omega)⟩
    have hwait := hw.settled hos hz hown hle
    have hrun := h (by omega) hs3 hl2 (hwait.widen hstays0 hi (le_refl k2))
    rw [after_after] at hrun
    simp only [pure_bind] at hrun
    exact hrun
  | error e' ρ =>
    obtain ⟨c, σ1, rfl, hr, hw⟩ | rfl := hf.of_error
    · replace hr : Structured.Expr.evalAll cx (xs.map Expr.lift) σ = .error (.fault c) σ1 := hr
      rw [hr] at hm
      exact ⟨m, s1, hsteps, .inl (Fails.trans hm hw)⟩
    · exact .now trivial

lemma RunsAll.start (h : RunsAll M Q cx taken s0 [] es k code ys k')
    (hs : Site M.program s0 s0.frame.fn.start a (itemsOfAll (code.map Stmt.lift)))
    (hl : Level M.program s0 s0.operands a s0.operands) (hq : Q (s0.stand a σ s0.operands t))
    (ht : Tracks cx.mode.care (· ∈ taken) ρ σ) :
    Comes M Q cx taken s0 k k' σ
      (WaitsForAll Q cx taken s0 (a + extent (itemsOfAll (code.map Stmt.lift))) k k' σ ys)
      (s0.stand a σ s0.operands t) (Structured.Expr.evalAll cx es ρ) := by
  have hw : WaitsForAll Q cx taken s0 a k k σ [] (.ok [] ρ) (s0.stand a σ s0.operands t) :=
    ⟨hq, σ, t, rfl, .refl σ, by simp, fun cx' _ => .ok .nil ht (.refl σ)⟩
  have hrun := h (le_refl k) hs hl hw
  simpa only [after, nil_append, bind_pure] using hrun

def withTwo {α : Type} (g : Operand → Operand → Eval α) : List Operand → Eval α
  | [o, o'] => g o o'
  | _ => throw .unset

lemma evalAll_two {α : Type} (cx : Context) (l r : Structured.Expr)
    (g : Operand → Operand → Eval α) :
    (l.eval cx >>= fun o => r.eval cx >>= fun o' => g o o') =
      Structured.Expr.evalAll cx [l, r] >>= withTwo g := by
  simp only [Structured.Expr.evalAll, bind_assoc, pure_bind, withTwo]

lemma follows_withTwo {α β : Type} {R : α → β → Prop} {g : Operand → Operand → Eval α}
    {g' : Operand → Operand → Eval β} (hos : List.Forall₂ (Stands care known) os os')
    (h : ∀ {o1 o2 o1' o2'}, Stands care known o1 o1' → Stands care known o2 o2' →
      Follows care known out R F (g o1 o2 ρ) (g' o1' o2' σ)) :
    Follows care known out R F (withTwo g os ρ) (withTwo g' os' σ) := by
  cases hos with
  | nil => trivial
  | cons ho1 hos =>
    cases hos with
    | nil => trivial
    | cons ho2 hos =>
      cases hos with
      | nil => exact h ho1 ho2
      | cons _ _ => trivial

lemma RunsExpr.binop (hop : op ∈ BinOp.defined)
    (h : RunsAll M Q cx taken s0 [] [l, r] k code [x, y] k') :
    RunsExpr M Q cx taken s0 (.binop op l r) k code (.binop op x y) k' := by
  intro a ρ σ t hs hl hq ht
  rw [Structured.Expr.eval, evalAll_two]
  refine resume (h.start hs hl hq ht) (le_pends _ _) fun hw => ?_
  refine Waits.lands (hw.next ?_ fun hc hr => ?_)
  · intro σ hxs
    simpa [Expr.Fits, hop] using hxs
  · rw [Expr.lift, Structured.Expr.eval, evalAll_two, bind_eq_after]
    refine hr.bind fun hos ht hσ => follows_withTwo hos fun ho ho' =>
      (follows_take hc (fun h h' => h.trans h') ht hσ ho).andThen ?_
    rintro v _ ρ1 σ1 rfl ht1 hσ1
    refine (follows_take hc (fun h h' => h.trans h') ht1 hσ1 ho').andThen ?_
    rintro w _ ρ2 σ2 rfl ht2 hσ2
    cases Word.binop op v w with
    | ok u => exact .ok (.of_word rfl rfl) ht2 hσ2
    | error c => exact ⟨_, rfl, ht2.world⟩

lemma itemsOfAll_snoc (code : List Stmt) (st : Stmt) : itemsOfAll ((code ++ [st]).map Stmt.lift) =
      itemsOfAll (code.map Stmt.lift) ++ itemsOf st.lift := by
  simp [itemsOfAll_append, itemsOfAll]

lemma extent_snoc (a : Nat) (code : List Stmt) (st : Stmt) :
    a + extent (itemsOfAll ((code ++ [st]).map Stmt.lift)) =
      a + extent (itemsOfAll (code.map Stmt.lift)) + extent (itemsOf st.lift) := by
  rw [itemsOfAll_snoc, extent_append, add_assoc]

lemma Waits.evaluated {α β : Type} {R : α → β → Prop} {ev : Context → Eval β}
    {r : EStateM.Result Stop Env α} (h : Waits Q cx taken s0 b k1 k2 σ0 xs R ev r s) (hk : k ≤ k1)
    (hk' : k2 ≤ k') :
    ∃ σ t, s = s0.stand b σ s0.operands t ∧ Q s ∧ (∀ x ∈ xs, x.Fits (Ready taken k2 σ)) ∧
      Follows cx.mode.care (· ∈ taken) False R (Stays taken k k' σ0) r (ev (flatly cx) σ) := by
  obtain ⟨hq, σ, t, rfl, hstays, hxs, hf⟩ := h
  refine ⟨σ, t, rfl, hq, hxs, (hf (flatly cx) (.inr rfl)).imp id fun hσ => ?_⟩
  exact (hstays.widen hk hk').trans hσ.stays

lemma RunsExpr.call (S : Stage M Q cx taken ok lab s0) (hf : ok f)
    (hdest : Fresh taken "lc" k dest k1) (h : RunsAll M Q cx taken s0 [] es k1 code xs k')
    (hk : k1 ≤ k') :
    RunsExpr M Q cx taken s0 (.call (.name f) es) k (code ++ [.call 0 dest (.name f) xs])
      (.temp dest) k' := by
  have hlt := hdest.lt
  intro a ρ σ t hs hl hq ht
  rw [itemsOfAll_snoc] at hs
  obtain ⟨hs1, hs2⟩ := hs.append
  rw [Structured.Expr.eval, extent_snoc]
  refine resume (h.start hs1 hl hq ht)
    (Exits.Le.trans (lowers_le (.refl σ) (by omega) (le_refl k')) (le_pends _ _)) fun hw => ?_
  obtain ⟨σ1, t1, rfl, hq1, hxs, hr⟩ := hw.evaluated (le_of_lt hlt) (le_refl k')
  refine Lands.imp (?_ : Lands M Q _ (lowers Q cx taken s0 M k k' σ)
    (fun o ρ s => WaitsFor Q cx taken s0 _ k k' σ (.temp dest) (.ok o ρ) s) _ _) (le_pends _ _)
    fun _ _ _ _ h => h
  refine S.callInto hf hxs hr hdest.ne_empty hs2 (hl.stmts hs1.placed) hq1 ?_
  rintro results ρ' σ' _ t' rfl hq' ht' hst'
  have hv := Registers.get?_set_self (σ'.regs.setAll retReg 1 results) dest (results.headD 0)
  refine .done ⟨hq', _, t', rfl, ?_, ?_, fun cx' _ => ?_⟩
  · exact (hst'.setAll results).set_fresh hdest (le_refl k) hk _
  · simp only [mem_singleton, forall_eq]
    exact .inr ⟨hdest.own.mono hk, by simp⟩
  · have heval : (Expr.temp dest).lift.eval cx'
        { σ' with regs := (σ'.regs.setAll retReg 1 results).set dest (results.headD 0) } =
        .ok (.reg dest (some (results.headD 0)))
          { σ' with regs := (σ'.regs.setAll retReg 1 results).set dest (results.headD 0) } := by
      rw [Expr.lift, Structured.Expr.eval, Eval.readRegister, hv]
    exact ⟨_, _, heval, .of_word rfl rfl, (ht'.setAll retReg 1 results).setOwn hdest.free _,
      .refl _⟩

/-! ### Statements -/

lemma Stage.use (S : Stage M Q cx taken ok lab s0) {α β : Type} {st : Structured.Stmt} {fl : Stmt}
    (scope : List String) {m : Eval α} {f : α → Eval Unit} {R : α → β → Prop}
    {ev : Context → Eval β}
    (hs : Site M.program s0 s0.frame.fn.start a (itemsOfAll ((code ++ [fl]).map Stmt.lift)))
    (hl : Level M.program s0 s0.operands a s0.operands)
    (hconf : fl.lift.Confined (fun _ => False) [] scope)
    (hscope : ∀ l ∈ scope, (M.program.labels[l]?).isSome) (heval : st.eval cx = m >>= f)
    (hrun : Comes M Q cx taken s0 k k' σ
      (Waits Q cx taken s0 (a + extent (itemsOfAll (code.map Stmt.lift))) k k' σ xs R ev)
      (s0.stand a σ s0.operands t) (m ρ))
    (hf : ∀ {r σ'}, Follows cx.mode.care (· ∈ taken) False R (Stays taken k k' σ) r
        (ev (flatly cx) σ') →
      Follows cx.mode.care (· ∈ taken) True (fun _ _ => True) (Stays taken k k' σ) (after r f)
        (fl.lift.eval (flatly cx) σ')) :
    Lands M Q cx.budget (lowers Q cx taken s0 M k k' σ) (fun _ => Stood Q cx taken s0
        (a + extent (itemsOfAll ((code ++ [fl]).map Stmt.lift))) k k' σ)
      (s0.stand a σ s0.operands t) (st.eval cx ρ) := by
  rw [itemsOfAll_snoc] at hs
  obtain ⟨hs1, hs2⟩ := hs.append
  rw [heval, extent_snoc]
  refine resume hrun (.refl _) fun hw => ?_
  obtain ⟨σ1, t1, rfl, hq1, -, hr⟩ := hw.evaluated (le_refl k) (le_refl k')
  exact S.flat fl scope hconf hscope hs2 (hl.stmts hs1.placed) hq1 (hf hr)

lemma Site.init
    (hs : Site M.program s0 s0.frame.fn.start a (itemsOfAll ((code ++ [st]).map Stmt.lift))) :
    Site M.program s0 s0.frame.fn.start a (itemsOfAll (code.map Stmt.lift)) := by
  rw [itemsOfAll_snoc] at hs
  exact hs.append.1

section

variable (S : Stage M Q cx taken ok lab s0) {known : String → Prop}

include S

omit S in
lemma RunsStmt.skip : RunsStmt M Q cx taken s0 .skip k [] k := by
  intro a ρ σ t hs hl hq ht
  exact .done ⟨hq, σ, t, rfl, ht, .refl σ⟩

omit S in
lemma RunsStmt.label : RunsStmt M Q cx taken s0 (.label l) k [.label l] k := by
  intro a ρ σ t hs hl hq ht
  exact .done ⟨hq, σ, t, rfl, ht, .refl σ⟩

lemma RunsStmt.moveTemp (hr : r ∈ taken) (hx : x.Fits known)
    (h : RunsExpr M Q cx taken s0 e k pre x k') :
    RunsStmt M Q cx taken s0 (.move (.temp r) e) k (pre ++ [.moveTemp r x]) k' := by
  intro a ρ σ t hs hl hq ht
  refine S.use [] hs hl (hx.confined _ _) (by simp) (eval_moveTemp cx r e)
    (h (Site.init hs) hl hq ht) fun hrun => ?_
  rw [Stmt.lift, eval_moveTemp, bind_eq_after]
  refine hrun.bind fun ho ht hσ =>
    (follows_take (.inr rfl) (fun h h' => h.trans h'.stays) ht hσ ho).andThen ?_
  rintro v _ ρ1 σ1 rfl ht1 hσ1
  exact .ok trivial (ht1.set r v) (hσ1.set_taken hr v)

lemma RunsStmt.exp (hx : x.Fits known) (h : RunsExpr M Q cx taken s0 e k pre x k') :
    RunsStmt M Q cx taken s0 (.exp e) k (pre ++ [.exp x]) k' := by
  intro a ρ σ t hs hl hq ht
  refine S.use [] hs hl (hx.confined _ _) (by simp) (by rw [Structured.Stmt.eval])
    (h (Site.init hs) hl hq ht) fun hrun => ?_
  rw [Stmt.lift, Structured.Stmt.eval, bind_eq_after]
  exact hrun.bind fun _ ht hσ => .ok trivial ht hσ

omit S in
lemma RunsStmt.drop (hx : x.Fits known) (hinert : isInert x = true)
    (h : RunsExpr M Q cx taken s0 e k pre x k') :
    RunsStmt M Q cx taken s0 (.exp e) k pre k' := by
  intro a ρ σ t hs hl hq ht
  rw [Structured.Stmt.eval]
  refine resume (h hs hl hq ht) (.refl _) fun {r s} hw => ?_
  obtain ⟨σ1, t1, rfl, hq1, -, hr⟩ := hw.evaluated (le_refl k) (le_refl k')
  obtain ⟨o, ho⟩ := hx.plain.eval_of_isInert hinert (flatly cx) σ1 (by simp [flatly])
  simp only [ho] at hr
  cases r with
  | ok o' ρ1 =>
    obtain ⟨_, _, ⟨⟩, -, ht1, hσ1⟩ := hr
    exact .done ⟨hq1, σ1, t1, rfl, ht1, hσ1⟩
  | error e ρ1 =>
    obtain ⟨_, _, rfl, ⟨⟩, -⟩ | rfl := hr.of_error
    exact .now trivial

lemma RunsStmt.cjump (hyes : lab yes) (hno : lab no) (hx : x.Fits known)
    (h : RunsExpr M Q cx taken s0 e k pre x k') :
    RunsStmt M Q cx taken s0 (.cjump e yes no) k (pre ++ [.cjump x yes no]) k' := by
  intro a ρ σ t hs hl hq ht
  refine S.use [yes, no] hs hl ⟨hx.confined _ _, .inl (by simp), .inl (by simp)⟩
    (by simpa using And.intro (S.labels hyes) (S.labels hno)) (by rw [Structured.Stmt.eval])
    (h (Site.init hs) hl hq ht) fun hrun => ?_
  rw [Stmt.lift, Structured.Stmt.eval, bind_eq_after]
  refine hrun.bind fun ho ht hσ =>
    (follows_take (.inr rfl) (fun h h' => h.trans h'.stays) ht hσ ho).andThen ?_
  rintro v _ ρ1 σ1 rfl ht1 hσ1
  exact ⟨trivial, σ1, rfl, ht1, hσ1⟩

lemma RunsStmt.ret (hxs : ∀ x ∈ xs, x.Fits known) (h : RunsAll M Q cx taken s0 [] es k code xs k') :
    RunsStmt M Q cx taken s0 (.ret es) k (code ++ [.ret xs]) k' := by
  intro a ρ σ t hs hl hq ht
  refine S.use [] hs hl (confinedAll_lift _ _ hxs) (by simp)
    (by rw [Structured.Stmt.eval]) (h.start (Site.init hs) hl hq ht) fun hrun => ?_
  rw [Stmt.lift, Structured.Stmt.eval, bind_eq_after]
  refine hrun.bind fun hos ht hσ =>
    (follows_takeAll (.inr rfl) (fun h h' => h.trans h'.stays) ht hσ hos).andThen ?_
  rintro vs _ ρ1 σ1 rfl ht1 hσ1
  exact ⟨trivial, σ1, rfl, ht1.world⟩

lemma RunsStmt.jump (hlab : lab l) :
    RunsStmt M Q cx taken s0 (.jump (.name l)) k [.jump (.name l)] k := by
  intro a ρ σ t hs hl hq ht
  have hitems : itemsOfAll ([Stmt.jump (.name l)].map Stmt.lift) =
      itemsOf (Stmt.jump (.name l)).lift := by
    simp [itemsOfAll]
  rw [hitems] at hs ⊢
  exact S.flat (.jump (.name l)) [l] (.inl (by simp))
    (by simpa using S.labels hlab) hs hl hq ⟨trivial, σ, rfl, ht, .refl σ⟩

lemma RunsStmt.moveCall (hr : r ∈ taken) (hf : ok f)
    (h : RunsAll M Q cx taken s0 [] es k code xs k') :
    RunsStmt M Q cx taken s0 (.move (.temp r) (.call (.name f) es)) k
      (code ++ [.call 0 r (.name f) xs]) k' := by
  intro a ρ σ t hs hl hq ht
  rw [itemsOfAll_snoc] at hs
  obtain ⟨hs1, hs2⟩ := hs.append
  rw [eval_moveTemp, Structured.Expr.eval, extent_snoc]
  simp only [bind_assoc, pure_bind]
  refine resume (h.start hs1 hl hq ht) (.refl _) fun hw => ?_
  obtain ⟨σ1, t1, rfl, hq1, hxs, hrun⟩ := hw.evaluated (le_refl k) (le_refl k')
  have hne : r ≠ "" := fun he => S.named (he ▸ hr)
  refine S.callInto hf hxs hrun hne hs2 (hl.stmts hs1.placed) hq1 ?_
  rintro results ρ' σ' _ t' rfl hq' ht' hst'
  exact .done ⟨hq', _, t', rfl, (ht'.setAll retReg 1 results).set r _,
    (hst'.setAll results).set_taken hr _⟩

lemma Stage.callOnly (returns : Int) (next : List Int32 → Eval Unit) (hf : ok f)
    (h : RunsAll M Q cx taken s0 [] es k code xs k')
    (hm : m = Structured.Expr.evalAll cx es >>= fun os => Eval.takeAll cx.mode.care os >>= fun vs =>
      Eval.callBy cx.call f vs >>= next)
    (hok : ∀ {results ρ}, ¬(0 < returns ∧ (results.length : Int) < returns) →
      next results ρ = .ok () ρ)
    (hfew : ∀ {results ρ}, 0 < returns ∧ (results.length : Int) < returns → next results ρ =
      .error (.fault (.returnCount (Structured.Expr.name f).text returns results.length)) ρ)
    (hs : Site M.program s0 s0.frame.fn.start a
      (itemsOfAll ((code ++ [Stmt.call returns "" (.name f) xs]).map Stmt.lift)))
    (hl : Level M.program s0 s0.operands a s0.operands) (hq : Q (s0.stand a σ s0.operands t))
    (ht : Tracks cx.mode.care (· ∈ taken) ρ σ) :
    Lands M Q cx.budget (lowers Q cx taken s0 M k k' σ) (fun _ => Stood Q cx taken s0
        (a + extent (itemsOfAll ((code ++ [Stmt.call returns "" (.name f) xs]).map Stmt.lift))) k k'
          σ)
      (s0.stand a σ s0.operands t) (m ρ) := by
  have hlift : (Stmt.call returns "" (.name f) xs).lift =
      .call returns (.name f) (xs.map Expr.lift) := rfl
  rw [itemsOfAll_snoc] at hs
  obtain ⟨hs1, hs2⟩ := hs.append
  rw [hm, extent_snoc, hlift]
  rw [hlift] at hs2
  refine resume (h.start hs1 hl hq ht) (.refl _) fun hw => ?_
  obtain ⟨σ1, t1, rfl, hq1, hxs, hrun⟩ := hw.evaluated (le_refl k) (le_refl k')
  have hn : IsCall (.stmt (.call returns (.name f) (xs.map Expr.lift))) f xs.length :=
    .inr ⟨_, _, rfl, by simp⟩
  refine S.call hf hxs hrun hn hs2 (hl.stmts hs1.placed) hq1 ?_
  intro results ρ' σ' t' s hq' hstep ht' hst'
  rw [returned_stmt] at hstep
  by_cases hfewer : 0 < returns ∧ (results.length : Int) < returns
  · rw [if_pos hfewer] at hstep
    rw [hfew hfewer]
    exact .now ⟨hq', _, _, hstep, rfl, ht'.world⟩
  · rw [if_neg hfewer] at hstep
    rw [hok hfewer]
    refine .step hq' hstep (.done ⟨S.keep hq' hstep, _, t', ?_, ht'.setAll retReg 1 results,
      hst'.setAll results⟩)
    have hend : a + extent (itemsOfAll (code.map Stmt.lift)) +
        extent (itemsOf (.call returns (.name f) (xs.map Expr.lift))) =
        a + extent (itemsOfAll (code.map Stmt.lift)) + 1 +
          extent (itemsOfExprs (xs.map Expr.lift)) + 1 := by
      simp only [itemsOf, itemsOfExpr, extent_append, extent]
      omega
    rw [hend]

lemma RunsStmt.expCall (hf : ok f) (h : RunsAll M Q cx taken s0 [] es k code xs k') :
    RunsStmt M Q cx taken s0 (.exp (.call (.name f) es)) k
      (code ++ [.call 0 "" (.name f) xs]) k' := by
  intro a ρ σ t hs hl hq ht
  refine S.callOnly 0 (fun _ => pure ()) hf h ?_ (fun _ => rfl)
    (fun hfew => absurd hfew.1 (by simp)) hs hl hq ht
  rw [Structured.Stmt.eval, Structured.Expr.eval]
  simp only [bind_assoc, pure_bind]
  rfl

lemma RunsStmt.call (hf : ok f) (h : RunsAll M Q cx taken s0 [] es k code xs k') :
    RunsStmt M Q cx taken s0 (.call returns (.name f) es) k
      (code ++ [.call returns "" (.name f) xs]) k' := by
  intro a ρ σ t hs hl hq ht
  refine S.callOnly returns _ (m := Structured.Stmt.eval cx (.call returns (.name f) es)) hf h
    (by rw [Structured.Stmt.eval]; rfl) ?_ ?_ hs hl hq ht
  · intro results ρ hnot
    rw [if_neg hnot]
    rfl
  · intro results ρ hfew
    rw [if_pos hfew]
    rfl

/-! ### Stores -/

omit S in
lemma eval_moveMem (cx : Context) (h : cx.mode.lax = false) (addr src : Structured.Expr) :
    (Structured.Stmt.move (.mem addr) src).eval cx = (do
      let a ← Eval.take cx.mode.care (← addr.eval cx)
      Eval.checkTarget src a
      let v ← Eval.take cx.mode.care (← src.eval cx)
      Eval.onWorld (World.store a v)) := by
  rw [Structured.Stmt.eval]
  simp only [h, Bool.not_false, if_true, Bool.false_eq_true, if_false]

omit S in
lemma follows_store (hF : ∀ {σ σ'}, F σ → Refills (· ∈ taken) σ σ' → F σ')
    (hworld : ∀ {σ} w, F σ → F { σ with world := w }) (ho : Stands cx.mode.care (· ∈ taken) o o')
    (ht : Tracks cx.mode.care (· ∈ taken) ρ σ) (hσ : F σ) :
    Follows cx.mode.care (· ∈ taken) True (fun _ _ => True) F
      ((Eval.take cx.mode.care o >>= fun v => Eval.onWorld (World.store w v)) ρ)
      ((Eval.take (flatly cx).mode.care o' >>= fun v => Eval.onWorld (World.store w v)) σ) := by
  refine (follows_take (.inr rfl) hF ht hσ ho).andThen ?_
  rintro v _ ρ1 σ1 rfl ht1 hσ1
  exact (follows_onWorld ht1 (World.tame_store w v) fun w => hworld w hσ1).imp (fun _ => trivial) id

lemma RunsStmt.moveMem (hx : x.Fits known) (hy : y.Fits known)
    (h : RunsExpr M Q cx taken s0 addr k pre x k') (hsrc : Plain (· ∈ taken) src y) :
    RunsStmt M Q cx taken s0 (.move (.mem addr) src) k (pre ++ [.moveMem x y]) k' := by
  intro a ρ σ t hs hl hq ht
  have hF : ∀ {σ1 σ2}, Stays taken k k' σ σ1 → Refills (· ∈ taken) σ1 σ2 → Stays taken k k' σ σ2 :=
    fun h h' => h.trans h'.stays
  refine S.use [] hs hl ⟨hx.confined _ _, hy.confined _ _⟩ (by simp)
    (eval_moveMem cx S.strict addr src) (h (Site.init hs) hl hq ht) fun hrun => ?_
  rw [Stmt.lift, eval_moveMem (flatly cx) rfl, bind_eq_after]
  refine hrun.bind fun ho ht hσ => (follows_take (.inr rfl) hF ht hσ ho).andThen ?_
  rintro w _ ρ1 σ1 rfl ht1 hσ1
  have hheap := ht1.world.alike.heap
  cases hw : ρ1.world.heap.load w with
  | error c =>
    have hleft : Eval.checkTarget src w ρ1 = .error (.target c src) ρ1 := by
      rw [Eval.checkTarget, hw]
    have hright : Eval.checkTarget y.lift w σ1 = .error (.target c y.lift) σ1 := by
      rw [Eval.checkTarget, hheap, hw]
    rw [bind_error hleft, bind_error hright]
    exact ⟨trivial, y.lift, σ1, rfl, ht1.world⟩
  | ok u =>
    have hleft : Eval.checkTarget src w ρ1 = .ok () ρ1 := by rw [Eval.checkTarget, hw]
    have hright : Eval.checkTarget y.lift w σ1 = .ok () σ1 := by
      rw [Eval.checkTarget, hheap, hw]
    rw [bind_ok hleft, bind_ok hright]
    refine (follows_plain _ (.inr rfl) S.reads hF hsrc ht1 hσ1).andThen fun ho ht2 hσ2 => ?_
    exact follows_store hF (fun _ h => h) ho ht2 hσ2

omit S in
lemma Heap.load_of_grows {h h' : Heap} (hg : h.Grows h') (hw : h.load w = .ok u) :
    ∃ u', h'.load w = .ok u' := by
  obtain ⟨⟨hdvd, hlo, hhi⟩, -⟩ := Heap.load_eq_ok_iff.1 hw
  have := hg.used
  exact ⟨_, Heap.load_of_accessible ⟨hdvd, hlo, by omega⟩⟩

omit S in
lemma Comes.reaches {α : Type} {W : EStateM.Result Stop Env α → State → Prop}
    {r : EStateM.Result Stop Env α} (h : Comes M Q cx taken s0 k k' σ W s r) :
    Comes M Q cx taken s0 k k' σ (fun r s' => W r s' ∧ Reaches M s s') s r := by
  obtain ⟨n, s', hsteps, hm⟩ := h
  have hreach : Reaches M s s' := Path.reaches ⟨n, hsteps⟩
  refine ⟨n, s', hsteps, ?_⟩
  cases r with
  | ok x ρ => exact ⟨hm, hreach⟩
  | error e ρ =>
    cases e with
    | fault c => exact Or.imp id (fun hw => ⟨hw, hreach⟩) hm
    | target c src => exact hm
    | goto l => exact hm
    | leave vs => exact hm
    | unset => exact hm
    | exhausted => exact hm

lemma RunsStmt.moveSaved (hz : z.Fits known) (hy : y.Fits known)
    (h : RunsExpr M Q cx taken s0 addr k pre x k1)
    (hsrc : RunsExpr M Q cx taken s0 src k1 pre' y k2) (hsv : Saves taken [x] k2 moves [z] k')
    (hcalm : ¬src.Calm) (hk : k ≤ k1) (hk1 : k1 ≤ k2) :
    RunsStmt M Q cx taken s0 (.move (.mem addr) src) k
      (pre ++ (moves ++ pre') ++ [.moveMem z y]) k' := by
  have hle := hsv.le
  intro a ρ σ t hs hl hq ht
  rw [itemsOfAll_snoc, map_append, map_append, itemsOfAll_append, itemsOfAll_append] at hs
  obtain ⟨hs123, hs4⟩ := hs.append
  obtain ⟨hs1, hs23⟩ := hs123.append
  obtain ⟨hs2, hs3⟩ := hs23.append
  have hl1 := hl.stmts hs1.placed
  have hl2 := hl1.stmts hs2.placed
  have hl3 := hl2.stmts hs3.placed
  rw [extent_snoc, map_append, map_append, itemsOfAll_append, itemsOfAll_append]
  rw [extent_append, extent_append, ← add_assoc, ← add_assoc] at hs4 ⊢
  rw [eval_moveMem cx S.strict]
  refine resume (h hs1 hl hq ht) (lowers_le (.refl σ) (le_refl k) (by omega)) ?_
  rintro r _ ⟨hq1, σ1, t1, rfl, hstays1, hxs, hf⟩
  have hf : Follows cx.mode.care (· ∈ taken) False (Stands cx.mode.care (· ∈ taken))
    (Refills (· ∈ taken) σ1) r (x.lift.eval cx σ1) := hf cx (.inl rfl)
  obtain ⟨n, s2, hsteps, hm⟩ := S.save (n := cx.budget) hsv hk1 hxs (fun hr => hr)
    (.refl σ1) hs2 hl1
    hq1
  rw [map_singleton, Structured.Expr.evalAll] at hm
  cases r with
  | ok o ρ1 =>
    obtain ⟨o1, σ1', hr, ho, ht1, -⟩ := hf
    have hnil : Structured.Expr.evalAll cx [] σ1' = .ok [] σ1' := rfl
    rw [bind_ok hr, bind_ok hnil] at hm
    obtain ⟨hq2, σ2, t2, rfl, ht2, hstays2, hsettled⟩ := hm
    have ht2 : Tracks cx.mode.care (· ∈ taken) ρ1 σ2 := ht1.trans ht2 fun _ => .inl
    have hstays0 : Stays taken k k' σ σ2 :=
      (hstays1.widen (le_refl k) (by omega)).trans (hstays2.widen (by omega) (le_refl k'))
    have hsettled : Settled _ _ _ σ2 z o1 := (forall₂_cons.1 hsettled).1
    show Lands _ _ _ _ _ _ ((Eval.take cx.mode.care o >>= _) ρ1)
    cases hw : o.word? with
    | none =>
      obtain ⟨r, rfl⟩ := exists_reg_of_word? hw
      have hcare : cx.mode.care ≠ .fills := by
        intro hc
        obtain ⟨o2, v, -, hv, ho2⟩ := hsettled.eval
        rw [ho2.unset hc (ho.unset hc rfl)] at hv
        cases hv
      have htake : Eval.take cx.mode.care (.reg r none) ρ1 = .error .unset ρ1 := by
        simp only [Eval.take, hcare, if_false]
        rfl
      rw [bind_error htake]
      exact .now trivial
    | some w =>
      rw [bind_ok (take_of_word hw ρ1)]
      cases hload : ρ1.world.heap.load w with
      | error c =>
        have hcheck : Eval.checkTarget src w ρ1 = .error (.target c src) ρ1 := by
          rw [Eval.checkTarget, hload]
        rw [bind_error hcheck]
        exact .now fun hc => absurd hc hcalm
      | ok u =>
        have hcheck : Eval.checkTarget src w ρ1 = .ok () ρ1 := by
          rw [Eval.checkTarget, hload]
        rw [bind_ok hcheck]
        refine .after hsteps (resume (hsrc hs3 hl2 hq2 ht2).reaches (lowers_le hstays0 hk hle) ?_)
        rintro r2 _ ⟨⟨hq3, σ3, t3, rfl, hstays3, -, hr2⟩, hreach⟩
        have hstays : Stays taken k k' σ σ3 := hstays0.trans (hstays3.widen hk hle)
        refine S.flat (.moveMem z y) [] ⟨hz.confined _ _, hy.confined _ _⟩ (by simp) hs4 hl3 hq3 ?_
        have hown : ∀ r, Kept taken k1 k2 k' r →
            Own taken k' r ∧ σ3.regs.get? r = σ2.regs.get? r := by
          rintro r ⟨hn, hint, i, rfl, hi⟩
          exact ⟨⟨hn, hint, i, rfl, by omega⟩, hstays3 hint i hn (by omega)⟩
        obtain ⟨o2, v, heval, hv, ho2⟩ := (hsettled.stays hown).eval
        obtain rfl : v = w := Option.some.inj (hv.symm.trans (ho2.word (ho.word hw)))
        -- the heap has grown since the address was checked
        obtain ⟨u', hu'⟩ := Heap.load_of_grows (grows_of_reaches hreach)
          (ht2.world.alike.heap ▸ hload)
        have hcheck' : Eval.checkTarget y.lift v σ3 = .ok () σ3 := by
          rw [State.stand_world] at hu'
          rw [Eval.checkTarget, hu']
        rw [Stmt.lift, eval_moveMem (flatly cx) rfl, bind_ok (heval _),
          bind_ok (take_of_word hv σ3), bind_ok hcheck', bind_eq_after]
        have hr3 := hr2 (flatly cx) (.inr rfl)
        refine (hr3.imp id (show ∀ {σ'}, _ → Stays taken k k' σ σ' from
          fun h => hstays.trans h.stays)).bind fun ho' ht' hσ' => ?_
        exact follows_store (fun h h' => h.trans h'.stays) (fun _ h => h) ho' ht' hσ'
  | error e' ρ1 =>
    obtain ⟨c, σ1', rfl, hr, hw⟩ | rfl := hf.of_error
    · rw [bind_error hr] at hm
      exact ⟨n, s2, hsteps, Fails.trans hm hw⟩
    · exact .now trivial

end

/-! ### Lists -/

lemma Site.nthCode {codes : List (List Stmt)}
    (h : Site M.program s0 s0.frame.fn.start a (itemsOfAll (codes.flatten.map Stmt.lift)))
    (hi : codes[i]? = some code) :
    Site M.program s0 s0.frame.fn.start
        (a + extent (itemsOfAll ((codes.take i).flatten.map Stmt.lift)))
        (itemsOfAll (code.map Stmt.lift)) ∧
      Placed M.program a (itemsOfAll ((codes.take i).flatten.map Stmt.lift)) ∧
      extent (itemsOfAll ((codes.take (i + 1)).flatten.map Stmt.lift)) =
        extent (itemsOfAll ((codes.take i).flatten.map Stmt.lift)) +
          extent (itemsOfAll (code.map Stmt.lift)) := by
  have hsplit : codes = codes.take i ++ (code :: codes.drop (i + 1)) := by
    rw [← (List.getElem?_eq_some_iff.1 hi).2, getElem_cons_drop, take_append_drop]
  rw [hsplit, flatten_append, flatten_cons, map_append, map_append,
    itemsOfAll_append, itemsOfAll_append] at h
  obtain ⟨h1, h23⟩ := h.append
  refine ⟨h23.append.1, h1.placed, ?_⟩
  rw [take_add_one, hi, Option.toList_some, flatten_append, flatten_singleton,
    map_append, itemsOfAll_append, extent_append]

/-- What is known of each statement of a list and of its code. -/
def RunsNth (M : Setup) (Q : State → Prop) (cx : Context) (taken : Taken) (s0 : State)
    (st : Structured.Stmt) (k : Nat) (code : List Stmt) (k' : Nat) : Prop :=
  (∀ l, st = .label l → code = [.label l]) ∧
    ∃ k1 k2, k ≤ k1 ∧ k2 ≤ k' ∧ RunsStmt M Q cx taken s0 st k1 code k2

lemma RunsStmt.seq {ss : List Structured.Stmt} {codes : List (List Stmt)}
    (h : ∀ {i : Nat} {st}, ss[i]? = some st → ∃ code, codes[i]? = some code ∧
      RunsNth M Q cx taken s0 st k code k') (hlen : codes.length = ss.length) :
    RunsStmt M Q cx taken s0 (.seq ss) k codes.flatten k' := by
  intro a ρ σ t hs hl hq ht
  have hpasses : Passes M Q cx cx.budget (lowers Q cx taken s0 M k k' σ) ss fun i =>
    Stood Q cx taken s0 (a + extent (itemsOfAll ((codes.take i).flatten.map Stmt.lift)))
      k k' σ := by
    refine ⟨?_, ?_⟩
    · rintro i st ρ1 _ hi ⟨hq1, σ1, t1, rfl, ht1, hstays1⟩
      obtain ⟨code, hcode, -, k1, k2, hk, hk', hrun⟩ := h hi
      obtain ⟨hsite, hbefore, hext⟩ := Site.nthCode hs hcode
      refine (hrun hsite (hl.stmts hbefore) hq1 ht1).imp (lowers_le hstays1 hk hk') ?_
      rintro _ ρ2 _ - ⟨hq2, σ2, t2, rfl, ht2, hstays2⟩
      exact ⟨hq2, σ2, t2, by rw [hext, add_assoc], ht2, hstays1.trans (hstays2.widen hk hk')⟩
    · rintro i l ρ1 s1 hi ⟨b, hb, hstood⟩
      obtain ⟨code, hcode, hlabel, -⟩ := h hi
      obtain rfl := hlabel l rfl
      have haddr := (Site.nthCode hs hcode).1.placed.1
      rw [hb] at haddr
      obtain rfl := Option.some.inj haddr
      exact hstood
  have hstart : Stood Q cx taken s0
      (a + extent (itemsOfAll ((codes.take 0).flatten.map Stmt.lift))) k k' σ ρ
      (s0.stand a σ s0.operands t) :=
    ⟨hq, σ, t, rfl, ht, .refl σ⟩
  have hrun := hpasses.seq (fun _ h => h) (.refl _) le_rfl hstart
  rwa [← hlen, take_length] at hrun

end

/-! ### All code -/

/-- Siblings are lowered, and the code of each of them runs. -/
inductive Parts (M : Setup) (Q : State → Prop) (cx : Context) (taken : Taken)
    (ok lab : String → Prop) (s0 : State) :
    List Expr → List Structured.Expr → Nat → List Stmt → List Expr → Nat → Prop where
  | nil {xs k} : Parts M Q cx taken ok lab s0 xs [] k [] xs k
  | cons {xs e es k pre x k1 moves zs k2 code ys k'} : LowersExpr taken ok lab e k pre x k1 →
    RunsExpr M Q cx taken s0 e k pre x k1 → Joins taken xs k1 pre moves zs k2 →
    Parts M Q cx taken ok lab s0 (zs ++ [x]) es k2 code ys k' →
    Parts M Q cx taken ok lab s0 xs (e :: es) k (moves ++ pre ++ code) ys k'

section

variable {M : Setup} {Q : State → Prop} {cx : Context} {taken : Taken} {ok lab : String → Prop}
  {s0 : State} {k k' : Nat} {es : List Structured.Expr} {xs ys : List Expr} {code : List Stmt}

lemma Parts.le (h : Parts M Q cx taken ok lab s0 xs es k code ys k') : k ≤ k' := by
  induction h with
  | nil => exact le_rfl
  | cons he _ hj _ ih => exact le_trans (le_trans (shape_expr he).1.le hj.le) ih

lemma Parts.runs (S : Stage M Q cx taken ok lab s0)
    (h : Parts M Q cx taken ok lab s0 xs es k code ys k') :
    RunsAll M Q cx taken s0 xs es k code ys k' := by
  induction h with
  | nil => exact .nil
  | cons hlow he hj hrest ih =>
    have hk := (shape_expr hlow).1.le
    cases hj with
    | plain => exact RunsAll.plain S (plain_expr hlow rfl) ih hk
    | after _ hsv => exact RunsAll.saved S he hsv ih hk hrest.le

lemma Parts.of_nil (h : Parts M Q cx taken ok lab s0 xs [] k code ys k') :
    code = [] ∧ ys = xs ∧ k' = k := by
  cases h
  exact ⟨rfl, rfl, rfl⟩

lemma Parts.store (S : Stage M Q cx taken ok lab s0) (hx : x.Fits known) (hy : y.Fits known)
    (h : Parts M Q cx taken ok lab s0 [] [addr, src] k code [x, y] k') :
    RunsStmt M Q cx taken s0 (.move (.mem addr) src) k (code ++ [.moveMem x y]) k' := by
  cases h with
  | cons hlow hrun hj h =>
    obtain ⟨rfl, rfl, rfl⟩ := hj.of_nil
    cases h with
    | cons hlow' hrun' hj' h =>
      obtain ⟨rfl, hxy, rfl⟩ := h.of_nil
      have hk := (shape_expr hlow).1.le
      have hk' := (shape_expr hlow').1.le
      cases hj' with
      | plain =>
        obtain ⟨rfl, rfl⟩ : x = _ ∧ y = _ := by simpa using hxy
        simpa using RunsStmt.moveMem S hx hy (hrun.widen hk') (plain_expr hlow' rfl)
      | after hne hsv =>
        obtain ⟨z, rfl⟩ := length_eq_one_iff.1 hsv.length_eq
        obtain ⟨rfl, rfl⟩ : x = z ∧ y = _ := by simpa using hxy
        have hcalm : ¬src.Calm := fun hc => hne (nil_of_calm src hlow' hc)
        simpa using RunsStmt.moveSaved S hx hy hrun hrun' hsv hcalm hk hk'

variable (S : Stage M Q cx taken ok lab s0)

include S

mutual

/-- The code of an expression runs as the expression is evaluated. -/
lemma runsExpr_of_lowers {e k pre x k'} :
    LowersExpr taken ok lab e k pre x k' → RunsExpr M Q cx taken s0 e k pre x k'
  | .const => S.plain (.const _)
  | .temp hr => S.plain (.temp hr)
  | .mem h => (runsExpr_of_lowers h).mem
  | .binop hop h => .binop hop ((parts_of_lowers h).runs S)
  | .unop h => (runsExpr_of_lowers h).unop
  | .call hf hd h => by
    have hparts := parts_of_lowers h
    exact .call S hf hd (hparts.runs S) hparts.le
  | .eseq hs he =>
    .eseq (runsStmt_of_lowers hs) (runsExpr_of_lowers he) (shape_stmt hs).le (shape_expr he).1.le

lemma parts_of_lowers {xs es k code ys k'} :
    LowersAll taken ok lab xs es k code ys k' → Parts M Q cx taken ok lab s0 xs es k code ys k'
  | .nil => .nil
  | .cons he hj h => .cons he (runsExpr_of_lowers he) hj (parts_of_lowers h)

/-- The code of a statement runs as the statement is evaluated. -/
lemma runsStmt_of_lowers {st k code k'} :
    LowersStmt taken ok lab st k code k' → RunsStmt M Q cx taken s0 st k code k'
  | .skip => .skip
  | .label => .label
  | .seq h => .seq (runsNth_of_lowers h) h.length_eq
  | .moveTemp hr h =>
    .moveTemp S hr (shape_expr h).2 (runsExpr_of_lowers h)
  | .moveCall hr hf h => .moveCall S hr hf ((parts_of_lowers h).runs S)
  | .moveMem h => by
    have hxs := (shape_all h (by simp)).2
    exact (parts_of_lowers h).store S (hxs _ (by simp)) (hxs _ (by simp))
  | .expCall hf h => .expCall S hf ((parts_of_lowers h).runs S)
  | .drop _ hx h => .drop (shape_expr h).2 hx (runsExpr_of_lowers h)
  | .exp _ _ h => .exp S (shape_expr h).2 (runsExpr_of_lowers h)
  | .jump hl => .jump S hl
  | .cjump hy hn h => .cjump S hy hn (shape_expr h).2 (runsExpr_of_lowers h)
  | .ret h => .ret S (shape_all h (by simp)).2 ((parts_of_lowers h).runs S)
  | .call hf h => .call S hf ((parts_of_lowers h).runs S)

lemma runsNth_of_lowers {ss k codes k'} : LowersStmts taken ok lab ss k codes k' →
    ∀ {i : Nat} {st}, ss[i]? = some st →
    ∃ code, codes[i]? = some code ∧ RunsNth M Q cx taken s0 st k code k'
  | .nil, _, _, hi => by simp at hi
  | .cons h hs, 0, _, hi => by
    have hrun := runsStmt_of_lowers h
    obtain rfl := Option.some.inj hi
    refine ⟨_, rfl, ?_, _, _, le_rfl, (shape_stmts hs).le, hrun⟩
    rintro l rfl
    cases h
    rfl
  | .cons h hs, i + 1, _, hi => by
    obtain ⟨code, hcode, hlabel, k1, k2, hk, hk', hrun⟩ := runsNth_of_lowers hs hi
    exact ⟨code, hcode, hlabel, k1, k2, le_trans (shape_stmt h).le hk, hk', hrun⟩

end

end

end TreeMachine.Flat
