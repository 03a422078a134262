import TreeMachine.Proofs.CompiledExprs

/-!
# Compiled array declarations do what trees mean

The code of an array declaration evaluates the sizes into registers and allocates the array, row
by row if it has more than one dimension. All of it stands in one statement list, loops
included, so the evaluation is followed through what is left of that list.
-/

open List

namespace TreeMachine.Structured

open TreeMachine.Tree
open Compile (ValueOf ValuesOf SizesOf AllocOf ArrayOf plus times word jumpTo)

variable {k k' : Nat} {ρ' : Env} {v n : Int32} {es : List Tree.Expr} {c c' : Compiling}
  {ts rest : List Expr} {all alloc : List Stmt} {size ref : Expr}

/-! ### Registers that are kept -/

/-- Registers without a number above `k` keep their values, results of calls apart. -/
def Kept (k : Nat) (ρ ρ' : Env) : Prop :=
  ∀ r v, Low k r → (∀ i, r ≠ retReg i) → ρ.regs.get? r = some v → ρ'.regs.get? r = some v

lemma Kept.refl (k : Nat) (ρ : Env) : Kept k ρ ρ := fun _ _ _ _ h => h

lemma Kept.trans (h : Kept k ρ ρ1) (h' : Kept k ρ1 ρ2) : Kept k ρ ρ2 :=
  fun r v hr hret hv => h' r v hr hret (h r v hr hret hv)

lemma Kept.mono (h : Kept k' ρ ρ') (hk : k ≤ k') : Kept k ρ ρ' :=
  fun r v hr hret hv => h r v (hr.mono hk) hret hv

lemma Kept.numbered {n : Nat} {ρ : Env} (h : Kept k ρ ρ') {hint : String} (hn : n ≤ k)
    (hv : ρ.regs.get? (numbered hint n) = some v) :
    ρ'.regs.get? (numbered hint n) = some v :=
  h _ v (low_numbered hint hn) (ne_retReg_numbered hint n) hv

section

variable {B : List (Nat × String)} {name : String} {tcx : Tree.Context} {cx : Context}
  {σ : Tree.Env} {ρ : Env}

lemma Sim.keeping {α : Type} {r : EStateM.Result Tree.Stop Tree.Env α} {s : Stmt}
    {Q : α → Unit → Env → Prop} (h : Sim B name Q r (s.eval cx ρ)) (hs : ∀ r ∈ s.moved, ¬Low k r) :
    Sim B name (fun a b ρ' => Q a b ρ' ∧ Kept k ρ ρ') r (s.eval cx ρ) := by
  cases r with
  | error e σ' => exact h
  | ok a σ' =>
    obtain ⟨b, ρ', hr, hq, hsame⟩ := h
    refine ⟨b, ρ', hr, ⟨hq, fun A v hA hret hv => ?_⟩, hsame⟩
    have hholds : Eval.Along (Holds A) (s.eval cx) := holds_stmt hret fun hmem => hs A hmem hA
    have hkept := hholds ρ v hv
    rwa [hr] at hkept

lemma not_low_numbered {hint : String} {n : Nat} (h : k < n) : ¬Low k (numbered hint n) := by
  intro hlow
  have := hlow hint n rfl
  omega

lemma not_low_of_numbered (h : Compile.Numbered k k' rs) : ∀ r ∈ rs, ¬Low k r := by
  intro r hr
  obtain ⟨hint, n, rfl, hlt, -⟩ := h.2 r hr
  exact not_low_numbered hlt

/-! ### Sizes -/

def Has (k : Nat) (ρ : Env) (v : Int32) (t : Expr) : Prop :=
  ∃ hint n, t = .temp (numbered hint n) ∧ n ≤ k ∧ ρ.regs.get? (numbered hint n) = some v

lemma Has.mono (h : Has k ρ v t) (hk : k ≤ k') : Has k' ρ v t := by
  obtain ⟨hint, n, rfl, hn, hv⟩ := h
  exact ⟨hint, n, rfl, le_trans hn hk, hv⟩

lemma Has.kept (h : Has k ρ v t) (hk : Kept k' ρ ρ') (hle : k ≤ k') : Has k ρ' v t := by
  obtain ⟨hint, n, rfl, hn, hv⟩ := h
  exact ⟨hint, n, rfl, hn, hk.numbered (le_trans hn hle) hv⟩

lemma moved_sizes (h : SizesOf scopes trap es c moves ts c') :
    Compile.Numbered c.temps c'.temps (Stmt.movedAll moves) := by
  induction h with
  | nil => exact .nil _
  | @cons e es c x c1 moves ts c2 hx _ ih =>
    refine (((Compile.moved_value hx).append (.one "aS" _)).append ih).perm fun r hr => ?_
    simp only [Stmt.movedAll, Stmt.moved, mem_append, mem_cons, not_mem_nil, or_false] at hr ⊢
    tauto

section

variable {scopes : List Scope} {callee : String → Prop} {seen : List Nat} {α : Type}
  {Q : α → Unit → Env → Prop}

/-- Sizes are evaluated into registers, from left to right. -/
lemma sim_sizes (F : Fits tcx cx) (hB : OneToOne B) {b}
    (hall : trapOf tcx.function ∉ labelsIn all) {moves rest}
    (h : SizesOf scopes (trapOf tcx.function) es c moves ts c')
    (hres : Tree.Expr.ResolvedAll callee seen es) (hroom : Room B c c')
    (hsub : labelsIn rest ⊆ labelsIn all) {f} (hs : Same B σ ρ)
    (hf : ∀ {vs σ' ρ'}, List.Forall₂ (Has c'.temps ρ') vs ts → Kept c.temps ρ ρ' → Same B σ' ρ' →
      Sim B tcx.function Q (f vs σ') (Stmt.resume cx all b rest ρ')) :
    Sim B tcx.function Q ((Tree.Expr.evalAll tcx es >>= f) σ)
      (Stmt.resume cx all b (moves ++ rest) ρ) := by
  induction h generalizing σ ρ f with
  | nil => exact hf .nil (Kept.refl _ _) hs
  | @cons e es c x c1 moves ts c2 hx hes ih =>
    have hle : c1.temps + 1 ≤ c2.temps := (moved_sizes hes).1
    obtain ⟨hroomx, hroom'⟩ := hroom.split (Compile.moved_value hx).1 (Nat.le_of_succ_le hle)
      (bound_value hx)
    have hne := hroom'.clear.ne "aS" (Nat.lt_succ_self _) hle
    have hmoved : ∀ r ∈ (Stmt.move (.temp (numbered "aS" (c1.temps + 1))) x).moved,
        ¬Low c.temps r := by
      refine not_low_of_numbered (((Compile.moved_value hx).append (.one "aS" _)).perm
        fun r hr => ?_)
      simpa [Stmt.moved, or_comm] using hr
    rw [Tree.Expr.evalAll, cons_append]
    simp only [bind_assoc, pure_bind]
    refine ((sim_moveOther (sim_value F hB hx hres.1 hroomx hs) hne).keeping hmoved).resume ?_
      hall fun {v σ1 ρ1} hq hs => ?_
    · rw [labelsIn_append, hes.labelsIn]
      exact hsub
    · refine ih hres.2 ⟨hroom'.bound, hroom'.clear.mono (Nat.le_succ _) le_rfl⟩ hs
        fun {vs σ' ρ'} hvs hk hs' => ?_
      refine hf (.cons ⟨"aS", _, rfl, hle, hk.numbered le_rfl hq.1⟩ hvs) ?_ hs'
      exact hq.2.trans (hk.mono (Nat.le_succ_of_le (Compile.moved_value hx).1))

/-! ### Allocation -/

lemma sim_header (F : Fits tcx cx) (hB : OneToOne B) {rest b}
    (hall : trapOf tcx.function ∉ labelsIn all) (hclear : Clear B k (k + 2))
    (hsize : Has k ρ n size) (hsub : labelsIn rest ⊆ labelsIn all) {f} (hs : Same B σ ρ)
    (hf : ∀ {ref σ' ρ'}, ρ'.regs.get? (numbered "aR" (k + 2)) = some ref → Kept k ρ ρ' →
      Same B σ' ρ' → Sim B tcx.function Q (f ref σ') (Stmt.resume cx all b rest ρ')) :
    Sim B tcx.function Q ((Tree.Eval.newSized tcx.mode n >>= f) σ)
      (Stmt.resume cx all b (Compile.allocArray.header size (.temp (numbered "aB" (k + 1)))
        (.temp (numbered "aR" (k + 2))) ++ rest) ρ) := by
  obtain ⟨hint, m, rfl, hm, hv⟩ := hsize
  have hbytes : (times (plus (.temp (numbered hint m)) (.const 1)) word).eval cx ρ =
      .ok (.value ((n + 1) * 4)) ρ := by
    simp only [times, plus, word, Expr.eval, Eval.readRegister, hv, Eval.take, Word.binop, bind,
      EStateM.bind, pure, EStateM.pure]
  have hmoved : ∀ r ∈ (Stmt.move (.temp (numbered "aB" (k + 1))) (Compile.malloc
      (times (plus (.temp (numbered hint m)) (.const 1)) word))).moved, ¬Low k r := by
    intro r hr
    obtain rfl : r = numbered "aB" (k + 1) := by
      simpa [Stmt.moved, Compile.malloc, times, plus, word, Expr.moved, Expr.movedAll] using hr
    exact not_low_numbered (Nat.lt_succ_self k)
  rw [Tree.Eval.newSized, Compile.allocArray.header]
  simp only [bind_assoc, pure_bind, cons_append, nil_append]
  refine ((sim_moveOther (sim_malloc F hB hs hbytes rfl)
    (hclear.ne "aB" (Nat.lt_succ_self k) (Nat.le_succ _))).keeping hmoved).resume hsub hall
    fun {a σ1 ρ1} hq hs => ?_
  have hsize : ρ1.regs.get? (numbered hint m) = some n := hq.2.numbered hm hv
  have hlength : Sim B tcx.function (fun _ _ _ => True) (Tree.Eval.put tcx.mode a (pure n) σ1)
      ((Stmt.move (.mem (.temp (numbered "aB" (k + 1)))) (.temp (numbered hint m))).eval cx
        ρ1) := by
    rw [eval_store (eval_temp hq.1) rfl]
    refine sim_storeAt F ?_ hs _
    rw [eval_temp hsize]
    exact .ok rfl hs
  have hmoved2 : ∀ r ∈ (Stmt.move (.mem (.temp (numbered "aB" (k + 1))))
      (.temp (numbered hint m))).moved, ¬Low (k + 1) r := by
    simp [Stmt.moved, Expr.moved]
  refine (hlength.keeping hmoved2).resume hsub hall fun {_ σ2 ρ2} hq2 hs => ?_
  have hbase : ρ2.regs.get? (numbered "aB" (k + 1)) = some a :=
    hq2.2.numbered le_rfl hq.1
  have href : (Stmt.move (.temp (numbered "aR" (k + 2)))
      (plus (.temp (numbered "aB" (k + 1))) word)).eval cx ρ2 =
        .ok () { ρ2 with regs := ρ2.regs.set (numbered "aR" (k + 2)) (a + 4) } := by
    rw [Stmt.eval]
    · rw [bind_ok (eval_reference hbase)]
      rfl
    · simp
  refine Sim.resumeIdle href (hf (Registers.get?_set_self _ _ _) ?_
    (hs.setOther (hclear.ne "aR" (by omega) le_rfl) _))
  refine (hq.2.trans (hq2.2.mono (Nat.le_succ k))).trans fun r v hr hret hv => ?_
  exact (Registers.get?_set_of_ne _ _ (hr.ne "aR" (by omega))).trans hv

lemma labelsIn_subset_append {pre rest : List Stmt} : labelsIn rest ⊆ labelsIn (pre ++ rest) := by
  rw [labelsIn_append]
  exact subset_append_right _ _

lemma eval_rowsTest (hj : ρ.regs.get? j = some (Int32.ofNat i)) (hsize : Has k ρ n size)
    (hi : i ≤ n.toInt.toNat) (yes no : String) :
    (Stmt.cjump (.binop .lt (.temp j) size) yes no).eval cx ρ =
      .error (.goto (if i < n.toInt.toNat then yes else no)) ρ := by
  obtain ⟨hint, m, rfl, -, hv⟩ := hsize
  have hcond : (Expr.binop .lt (.temp j) (.temp (numbered hint m))).eval cx ρ =
      .ok (.value (Word.ofBool (Int32.ofNat i < n))) ρ := by
    simp only [Expr.eval, Eval.readRegister, hj, hv, Eval.take, Word.binop, bind, EStateM.bind,
      pure, EStateM.pure]
  have hbound := Int32.toInt_lt n
  have hlt : Int32.ofNat i < n ↔ i < n.toInt.toNat := by
    rw [Int32.lt_iff_toInt_lt, Int32.toInt_ofNat_of_lt (by omega)]
    omega
  rw [Stmt.eval, bind_ok hcond, bind_ok (take_of_word rfl ρ)]
  by_cases h : i < n.toInt.toNat
  · rw [if_pos h, Word.ofBool, decide_eq_true (hlt.2 h)]
    rfl
  · rw [if_neg h, Word.ofBool, decide_eq_false fun hl => h (hlt.1 hl)]
    rfl

/-- What stands before the code that makes a row: the test. -/
def rowsTest (k l : Nat) (size : Expr) : List Stmt :=
  [.cjump (.binop .lt (.temp (numbered "aJ" (k + 3))) size) (numbered "rows.body" (l + 2))
      (numbered "rows.end" (l + 3)),
    .label (numbered "rows.body" (l + 2))]

/-- What stands after it: the row is stored, and the loop goes on. -/
def rowsStep (k l : Nat) (row : Expr) : List Stmt :=
  [.move (.mem (plus (.temp (numbered "aR" (k + 2))) (times (.temp (numbered "aJ" (k + 3))) word)))
      row,
    .move (.temp (numbered "aJ" (k + 3))) (plus (.temp (numbered "aJ" (k + 3))) (.const 1)),
    jumpTo (numbered "rows.begin" (l + 1))]

/-- The code that makes a row does what the tree does, wherever it stands in the list. -/
def SimRow (B : List (Nat × String)) (tcx : Tree.Context) (cx : Context) (all : List Stmt) (k : Nat)
    (row : Nat → Tree.Eval (Int32 × Nat)) (alloc : List Stmt) (ref : String)
    (vs : List Int32) (ts : List Expr) (Q : α → Unit → Env → Prop) (post : List Stmt) : Prop :=
  ∀ {b σ ρ} {f : Int32 × Nat → Tree.Eval α}, List.Forall₂ (Has k ρ) vs ts → Same B σ ρ →
    (∀ {r b' σ' ρ'}, ρ'.regs.get? ref = some r → Kept k ρ ρ' → Same B σ' ρ' →
      Sim B tcx.function Q (f (r, b') σ') (Stmt.resume cx all b' post ρ')) →
    Sim B tcx.function Q ((row b >>= f) σ) (Stmt.resume cx all b (alloc ++ post) ρ)

lemma sim_rows (F : Fits tcx cx) {post before l rowReg make ref vs}
    (hall : trapOf tcx.function ∉ labelsIn all)
    (heq : all = before ++ .label (numbered "rows.begin" (l + 1)) :: (rowsTest k l size ++
      (alloc ++ (rowsStep k l (.temp rowReg) ++ .label (numbered "rows.end" (l + 3)) :: post))))
    (hbefore : ∀ m ∈ labelsIn before ++ labelsIn post, Low l m)
    (halloc : ∀ m ∈ labelsIn alloc, ¬Low (l + 3) m) (hclear : Clear B k (k + 3))
    (hmake : SimRow B tcx cx all (k + 3) make alloc rowReg vs ts Q
      (rowsStep k l (.temp rowReg) ++ .label (numbered "rows.end" (l + 3)) :: post)) {f}
    (count : Nat) :
    ∀ {j b σ ρ}, j + count = n.toInt.toNat → Same B σ ρ →
      ρ.regs.get? (numbered "aJ" (k + 3)) = some (Int32.ofNat j) →
      ρ.regs.get? (numbered "aR" (k + 2)) = some ref → Has k ρ n size →
      List.Forall₂ (Has k ρ) vs ts →
      (∀ {b' σ' ρ'}, Kept (k + 2) ρ ρ' → Same B σ' ρ' →
        Sim B tcx.function Q (f b' σ') (Stmt.resume cx all b' post ρ')) →
      Sim B tcx.function Q ((Tree.Eval.putRows tcx.mode make ref count j b >>= f) σ)
        (Stmt.resume cx all b (rowsTest k l size ++ (alloc ++ (rowsStep k l (.temp rowReg) ++
          .label (numbered "rows.end" (l + 3)) :: post))) ρ) := by
  have hne : ∀ {hint hint' i i'}, i ≠ i' → numbered hint i ≠ numbered hint' i' :=
    fun hi he => hi (numbered_inj.1 he).2
  have hsub : labelsIn (.label (numbered "rows.end" (l + 3)) :: post) ⊆ labelsIn all := by
    rw [heq]
    refine fun m hm => ?_
    simp only [labelsIn_append, labelsIn_cons, mem_append] at hm ⊢
    tauto
  have hbegin : numbered "rows.begin" (l + 1) ∉
      labelsIn (.label (numbered "rows.end" (l + 3)) :: post) := by
    rw [labelsIn_cons, mem_append, not_or]
    refine ⟨by simpa [Stmt.label?] using hne (by omega), fun hm => ?_⟩
    exact (hbefore _ (mem_append_right _ hm)).ne "rows.begin" (Nat.lt_succ_self l) rfl
  have hbegin' : numbered "rows.begin" (l + 1) ∉ labelsIn before := fun hm =>
    (hbefore _ (mem_append_left _ hm)).ne "rows.begin" (Nat.lt_succ_self l) rfl
  have hjump : ∀ ρ, (jumpTo (numbered "rows.begin" (l + 1))).eval cx ρ =
      .error (.goto (numbered "rows.begin" (l + 1))) ρ := fun _ => rfl
  induction count with
  | zero =>
    intro j b σ ρ hcount hs hj href hsize hts hf
    have htest : Stmt.eval cx _ ρ = _ := eval_rowsTest hj hsize (by omega)
      (numbered "rows.body" (l + 2)) (numbered "rows.end" (l + 3))
    rw [if_neg (by omega)] at htest
    have hskip : numbered "rows.end" (l + 3) ∉ labelsIn (.label (numbered "rows.body" (l + 2)) ::
        (alloc ++ rowsStep k l (.temp rowReg))) := by
      rw [labelsIn_cons, labelsIn_append, mem_append, mem_append, not_or, not_or]
      refine ⟨by simpa [Stmt.label?] using hne (by omega), fun hm => ?_, by
        simp [rowsStep, labelsIn_cons, jumpTo, Stmt.label?]⟩
      exact halloc _ hm (low_numbered _ le_rfl)
    have hskipped : Stmt.resume cx all b (_ :: (_ ++ .label _ :: post)) ρ = _ :=
      resume_forward htest hskip
    simp only [cons_append, append_assoc] at hskipped
    rw [rowsTest, cons_append, cons_append, nil_append, hskipped]
    exact hf (Kept.refl _ _) hs
  | succ count ih =>
    intro j b σ ρ hcount hs hj href hsize hts hf
    have htest : Stmt.eval cx _ ρ = _ := eval_rowsTest hj hsize (by omega)
      (numbered "rows.body" (l + 2)) (numbered "rows.end" (l + 3))
    rw [if_pos (by omega)] at htest
    rw [rowsTest, cons_append, cons_append, nil_append, resume_next htest, Tree.Eval.putRows]
    simp only [bind_assoc]
    refine hmake (hts.imp fun _ _ h => h.mono (by omega)) hs fun {r b' σ1 ρ1} hr hk hs => ?_
    have hj1 := hk.numbered le_rfl hj
    have href1 := hk.numbered (by omega) href
    have haddr : (plus (.temp (numbered "aR" (k + 2))) (times (.temp (numbered "aJ" (k + 3)))
        word)).eval cx ρ1 = .ok (.value (ref + Int32.ofNat j * 4)) ρ1 := by
      simp only [plus, times, word, Expr.eval, Eval.readRegister, hj1, href1, Eval.take,
        Word.binop, bind, EStateM.bind, pure, EStateM.pure]
    have hstore : Sim B tcx.function (fun _ _ _ => True)
        (Tree.Eval.put tcx.mode (ref + Int32.ofNat j * 4) (pure r) σ1)
        ((Stmt.move (.mem (plus (.temp (numbered "aR" (k + 2)))
          (times (.temp (numbered "aJ" (k + 3))) word))) (.temp rowReg)).eval cx ρ1) := by
      rw [eval_store haddr rfl]
      refine sim_storeAt F ?_ hs _
      rw [eval_temp hr]
      exact .ok rfl hs
    simp only [rowsStep, cons_append, nil_append]
    refine (hstore.keeping (k := k + 3) (by simp [Stmt.moved, Expr.moved, plus, times,
      word])).resume hsub hall fun {_ σ2 ρ2} hq hs => ?_
    have hj2 := hq.2.numbered le_rfl hj1
    have hincr : (Stmt.move (.temp (numbered "aJ" (k + 3)))
        (plus (.temp (numbered "aJ" (k + 3))) (.const 1))).eval cx ρ2 = .ok ()
          { ρ2 with regs := ρ2.regs.set (numbered "aJ" (k + 3)) (Int32.ofNat (j + 1)) } := by
      rw [Stmt.eval]
      · simp only [plus, Expr.eval, Eval.readRegister, hj2, Eval.take, Word.binop, bind,
          EStateM.bind, pure, EStateM.pure, Int32.ofNat_add]
        rfl
      · simp
    refine Sim.resumeIdle hincr ?_
    have hkept : Kept (k + 2) ρ
        { ρ2 with regs := ρ2.regs.set (numbered "aJ" (k + 3)) (Int32.ofNat (j + 1)) } := by
      refine ((hk.mono (by omega)).trans (hq.2.mono (by omega))).trans fun r v hr hret hv => ?_
      exact (Registers.get?_set_of_ne _ _ (hr.ne "aJ" (by omega))).trans hv
    have hs3 := hs.setOther (hclear.ne "aJ" (n := k + 3) (by omega) le_rfl)
      (Int32.ofNat (j + 1))
    cases b' with
    | zero =>
      have hmem : numbered "rows.begin" (l + 1) ∈ labelsIn all := by
        simp [heq, mem_labelsIn]
      exact .inr ⟨_, _, resume_exhausted (hjump _) hbegin hmem, .inl rfl, hs3.world⟩
    | succ b' =>
      rw [resume_back (hjump _) hbegin heq hbegin']
      refine ih (by omega) hs3 (Registers.get?_set_self _ _ _)
        (hkept.numbered le_rfl href) (hsize.kept hkept (by omega))
        (hts.imp fun _ _ h => h.kept hkept (by omega)) fun hk' hs' => hf (hkept.trans hk') hs'

lemma Compile.AllocOf.temps_le (h : AllocOf size rest c alloc ref c') : c.temps + 2 ≤ c'.temps := by
  induction h with
  | one => exact le_rfl
  | rows _ ih =>
    simp only at ih
    omega

lemma Compile.AllocOf.ref_numbered (h : AllocOf size rest c alloc ref c') :
    ref = .temp (numbered "aR" (c.temps + 2)) := by
  cases h <;> rfl

lemma Compile.AllocOf.labels_high (h : AllocOf size rest c alloc ref c') :
    ∀ m ∈ labelsIn alloc, ¬Low c.labels m := by
  induction h with
  | one => simp [Compile.allocArray.header, labelsIn_cons, Stmt.label?]
  | @rows size inner rest c alloc row c' _ ih =>
    simp only [Compile.rowsCode, labelsIn_append, forall_mem_append]
    refine ⟨⟨⟨?_, ?_⟩, fun m hm hlow => ih m hm (hlow.mono (Nat.le_add_right _ 3))⟩, ?_⟩
    · simp [Compile.allocArray.header, labelsIn_cons, Stmt.label?]
    · simp [labelsIn_cons, Stmt.label?, not_low_numbered]
    · simp [labelsIn_cons, Stmt.label?, jumpTo, not_low_numbered]

/-- An array is allocated by the sizes of its dimensions. -/
lemma sim_alloc (F : Fits tcx cx) (hB : OneToOne B) (hall : trapOf tcx.function ∉ labelsIn all)
    (h : AllocOf size rest c alloc ref c') :
    ∀ {pre post b n vs σ ρ} {f : Int32 × Nat → Tree.Eval α}, Clear B c.temps c'.temps →
      all = pre ++ (alloc ++ post) → (∀ m ∈ labelsIn pre ++ labelsIn post, Low c.labels m) →
      List.Forall₂ (Has c.temps ρ) (n :: vs) (size :: rest) → Same B σ ρ →
      (∀ {r b' σ' ρ'}, ρ'.regs.get? (numbered "aR" (c.temps + 2)) = some r → Kept c.temps ρ ρ' →
        Same B σ' ρ' → Sim B tcx.function Q (f (r, b') σ') (Stmt.resume cx all b' post ρ')) →
      Sim B tcx.function Q ((Tree.Eval.newRows tcx.mode n vs b >>= f) σ)
        (Stmt.resume cx all b (alloc ++ post) ρ) := by
  induction h with
  | @one size c =>
    intro pre post b n vs σ ρ f hclear heq hlow hts hs hf
    obtain ⟨hn, hnil⟩ := forall₂_cons.1 hts
    obtain rfl := forall₂_nil_right_iff.1 hnil
    rw [Tree.Eval.newRows]
    simp only [bind_assoc, pure_bind]
    refine sim_header F hB hall hclear hn ?_ hs fun hr hk hs => hf hr hk hs
    rw [heq, ← append_assoc]
    exact labelsIn_subset_append
  | @rows size inner rest c alloc row c' halloc ih =>
    intro pre post b n vs σ ρ f hclear heq hlow hts hs hf
    have hle : c.temps + 3 + 2 ≤ c'.temps := halloc.temps_le
    obtain rfl := halloc.ref_numbered
    obtain ⟨hn, hrest⟩ := forall₂_cons.1 hts
    obtain ⟨m, ms, hm, hms, rfl⟩ := forall₂_cons_right_iff.1 hrest
    let head := Compile.allocArray.header size (.temp (numbered "aB" (c.temps + 1)))
      (.temp (numbered "aR" (c.temps + 2)))
    let tail := alloc ++ (rowsStep c.temps c.labels (.temp (numbered "aR" (c.temps + 3 + 2))) ++
      .label (numbered "rows.end" (c.labels + 3)) :: post)
    have hcode : Compile.rowsCode size (.temp (numbered "aB" (c.temps + 1)))
        (.temp (numbered "aR" (c.temps + 2))) (.temp (numbered "aJ" (c.temps + 3)))
        (.temp (numbered "aR" (c.temps + 3 + 2))) (numbered "rows.begin" (c.labels + 1))
        (numbered "rows.body" (c.labels + 2)) (numbered "rows.end" (c.labels + 3)) alloc ++ post =
          head ++ .move (.temp (numbered "aJ" (c.temps + 3))) (.const 0) ::
          .label (numbered "rows.begin" (c.labels + 1)) ::
            (rowsTest c.temps c.labels size ++ tail) := by
      simp [Compile.rowsCode, rowsTest, rowsStep, head, tail]
    rw [hcode, ← append_assoc] at heq
    rw [hcode, Tree.Eval.newRows]
    simp only [bind_assoc, pure_bind]
    have hheader : labelsIn head = [] := rfl
    obtain ⟨hpre, hpost⟩ := forall_mem_append.1 hlow
    have hclear3 : Clear B c.temps (c.temps + 3) := hclear.mono le_rfl (by omega)
    refine sim_header F hB hall (hclear3.mono le_rfl (Nat.le_succ _)) hn
      (heq ▸ labelsIn_subset_append) hs fun {ref σ1 ρ1} href hk hs => ?_
    have hzero : (Stmt.move (.temp (numbered "aJ" (c.temps + 3))) (.const 0)).eval cx ρ1 =
        .ok () { ρ1 with regs := ρ1.regs.set (numbered "aJ" (c.temps + 3)) 0 } := rfl
    have hkept : Kept (c.temps + 2) ρ1
        { ρ1 with regs := ρ1.regs.set (numbered "aJ" (c.temps + 3)) 0 } := fun r v hr hret hv =>
      (Registers.get?_set_of_ne _ _ (hr.ne "aJ" (by omega))).trans hv
    have hfrom : Kept c.temps ρ { ρ1 with regs := ρ1.regs.set (numbered "aJ" (c.temps + 3)) 0 } :=
      hk.trans (hkept.mono (by omega))
    refine Sim.resumeIdle hzero ?_
    rw [resume_label]
    -- What stands before the loop, and before the code that makes a row.
    obtain ⟨before, hbefore⟩ : ∃ before, before = pre ++ head ++
      [.move (.temp (numbered "aJ" (c.temps + 3))) (.const 0)] := ⟨_, rfl⟩
    have hlabels : labelsIn before = labelsIn pre := by
      rw [hbefore, labelsIn_append, labelsIn_append, hheader]
      simp [labelsIn_cons, Stmt.label?]
    have hloop : all = before ++ .label (numbered "rows.begin" (c.labels + 1)) ::
        (rowsTest c.temps c.labels size ++ tail) := by
      rw [heq, hbefore]
      simp
    have hrow : all = before ++ .label (numbered "rows.begin" (c.labels + 1)) ::
        rowsTest c.temps c.labels size ++ tail := by
      rw [hloop]
      simp
    refine sim_rows F hall hloop (hlabels ▸ hlow) halloc.labels_high hclear3 ?_ n.toInt.toNat
      (zero_add _) (hs.setOther (hclear3.ne "aJ" (by omega) le_rfl) 0)
      (Registers.get?_set_self _ _ _) (hkept.numbered le_rfl href)
      (hn.kept hfrom le_rfl) (hrest.imp fun _ _ h => h.kept hfrom le_rfl)
      fun {b' σ' ρ'} hk' hs' =>
        hf (hk'.numbered le_rfl (hkept.numbered le_rfl href))
          (hfrom.trans (hk'.mono (by omega))) hs'
    intro b σ ρ f hvs hs hf
    refine ih (hclear.mono (Nat.le_add_right _ 3) le_rfl) hrow ?_ hvs hs hf
    have hlow' : ∀ m ∈ labelsIn pre ++ labelsIn post, Low (c.labels + 3) m :=
      fun m hm => (hlow m hm).mono (Nat.le_add_right _ 3)
    simp only [labelsIn_append, hlabels, labelsIn_cons, rowsTest, rowsStep, jumpTo, Stmt.label?,
      forall_mem_append, Option.toList] at hlow' ⊢
    simpa [low_numbered] using hlow'

/-! ### Declarations -/

lemma low_trapOf (k : Nat) (f : String) : Low k (trapOf f) :=
  fun hint n he => absurd he.symm (numbered_ne_trapOf hint n f)

lemma simBeside_values (F : Fits tcx cx) (hB : OneToOne B) {xs : List Expr}
    (h : ValuesOf scopes (trapOf tcx.function) es c xs c')
    (hres : Tree.Expr.ResolvedAll callee seen es) (hroom : Room B c c') (hint : String) {n : Nat}
    (hn : c'.temps < n) :
    List.Forall₂ (SimBeside B tcx.function cx (numbered hint n)) (es.map (·.eval tcx)) xs := by
  induction es generalizing c xs with
  | nil =>
    cases h
    exact .nil
  | cons e es ih =>
    cases h with
    | cons hx hs =>
      obtain ⟨hrx, hrs⟩ := hroom.split (Compile.moved_value hx).1 (Compile.moved_values hs).1
        (bound_value hx)
      refine .cons ⟨sim_value F hB hx hres.1 hrx, fun hmem => ?_⟩ (ih hs hres.2 hrs)
      obtain ⟨hint', m, he, -, hm⟩ := (Compile.moved_value hx).2 _ hmem
      have hle := (Compile.moved_values hs).1
      have := (numbered_inj.1 he).2
      omega

/-- The array of a declaration. -/
lemma sim_array (F : Fits tcx cx) (hB : OneToOne B) {sizes elements}
    (h : ArrayOf scopes (trapOf tcx.function) sizes elements c alloc ref c')
    (hsizes : Tree.Expr.ResolvedAll callee seen sizes)
    (helements : Tree.Expr.ResolvedAll callee seen elements) (hroom : Room B c c') {id reg}
    (hreg : (id, reg) ∈ B) (hs : Same B σ ρ) :
    Sim B tcx.function (fun _ _ _ => True)
      ((Tree.newDeclared tcx sizes elements >>= Tree.Eval.setCell id) σ)
      ((Stmt.seq (alloc ++ [.move (.temp reg) ref])).eval cx ρ) := by
  cases h with
  | @sizes _ _ _ moves size rest c1 alloc _ _ hm ha =>
    have hle : c1.temps ≤ c'.temps := Nat.le_of_add_right_le ha.temps_le
    have hbound : c1.bound = c.bound := by
      have hsupply := congrArg Supply.bound hm.named.1.supply
      rwa [bound_temps] at hsupply
    obtain ⟨hrm, hra⟩ := hroom.split (moved_sizes hm).1 hle hbound
    obtain rfl := ha.ref_numbered
    have hlast : labelsIn [Stmt.move (.temp reg) (.temp (numbered "aR" (c1.temps + 2)))] = [] :=
      rfl
    have hall : trapOf tcx.function ∉ labelsIn (moves ++
        (alloc ++ [.move (.temp reg) (.temp (numbered "aR" (c1.temps + 2)))])) := by
      rw [labelsIn_append, labelsIn_append, hm.labelsIn, hlast, nil_append, List.append_nil]
      exact fun hmem => ha.labels_high _ hmem (low_trapOf _ _)
    rw [append_assoc, eval_seq, Tree.newDeclared, bind_assoc]
    refine sim_sizes F hB hall hm hsizes hrm labelsIn_subset_append hs
      fun {vs σ1 ρ1} hvs hk hs => ?_
    obtain ⟨n, ns, hn, hns, rfl⟩ := forall₂_cons_right_iff.1 hvs
    simp only [bind_assoc, pure_bind]
    refine F.budget ▸ sim_alloc F hB hall ha hra.clear rfl ?_ hvs hs fun {r b' σ2 ρ2} hr hk hs => ?_
    · rw [hm.labelsIn, hlast]
      simp
    · exact (sim_moveValue hB hreg (eval_temp hr) rfl hs).last hall
  | @elements _ c xs c1 hx =>
    have hroom' : Room B c c1 := ⟨hroom.bound, hroom.clear.mono le_rfl (Nat.le_succ _)⟩
    have hbase := hroom.clear.ne "aB" (Nat.lt_succ_of_le (Compile.moved_values hx).1) le_rfl
    have hlabels : labelsIn [Compile.literalCode (.temp (numbered "aB" (c1.temps + 1))) xs,
      .move (.temp reg) (plus (.temp (numbered "aB" (c1.temps + 1))) word)] = [] := rfl
    refine Sim.seq hlabels fun {all} hall _ => ?_
    have htrap : trapOf tcx.function ∉ labelsIn all := by simp [hall]
    rw [Tree.newDeclared, Tree.Expr.evalAll, pure_bind]
    refine (sim_literal F hB hbase (ne_retReg_numbered _ _) (simBeside_values F hB hx helements
      hroom' "aB" (Nat.lt_succ_self _)) hs).resume (nil_subset _) htrap
      fun {r σ1 ρ1} hq hs => ?_
    obtain ⟨a, ha, rfl⟩ := hq
    exact (sim_moveValue hB hreg (eval_reference ha) rfl hs).last htrap

end

end

end TreeMachine.Structured
