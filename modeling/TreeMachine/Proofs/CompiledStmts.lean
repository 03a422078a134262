import TreeMachine.Proofs.CompiledArrays
import TreeMachine.Proofs.Registers

/-!
# Compiled statements do what trees mean

The code of every statement of a resolved tree does what the tree means, by induction on the rules
of the compiler. Blocks and branches follow the tree part by part. A loop goes round in
both as often as the budget allows.
-/

open List

namespace TreeMachine.Structured

open TreeMachine.Tree
open Compile (ValueOf ValuesOf BranchOf StmtOf StmtsOf ResultsOf Listed draws drawsAll temps
  registerFor jumpTo)

/-! ### Registers of declarations -/

/-- `B` has the registers of all declarations of a function, in which code that takes the names
`ds` follows. -/
structure Around (B : List (Nat × String)) (c : Compiling) (ds : List Draw) : Prop where
  settled : c.supply.Settled
  listed : Listed c.supply
  rest : ∃ ds', (∀ sym, .decl sym ∈ ds ++ ds' → Plain sym.name) ∧
    B = (c.supply.drawAll (ds ++ ds')).bound

namespace Around

variable {B : List (Nat × String)} {c c' : Compiling} {ds ds' : List Draw}

lemma left (h : Around B c (ds ++ ds')) : Around B c ds := by
  obtain ⟨hsettled, hlisted, rest, hplain, hB⟩ := h
  rw [append_assoc] at hplain hB
  exact ⟨hsettled, hlisted, _, hplain, hB⟩

lemma right (h : Around B c (ds ++ ds')) (hc : c'.supply = c.supply.drawAll ds) :
    Around B c' ds' := by
  obtain ⟨hsettled, hlisted, rest, hplain, hB⟩ := h
  rw [append_assoc] at hplain hB
  refine ⟨?_, ?_, rest, fun sym hsym => hplain sym (mem_append_right _ hsym), ?_⟩
  · rw [hc]
    exact hsettled.drawAll fun sym hsym => hplain sym (mem_append_left _ hsym)
  · rw [hc]
    exact hlisted.drawAll ds
  · rw [hB, hc, Supply.drawAll_append]

lemma bound (h : Around B c ds) : ∀ p ∈ c.bound, p ∈ B := by
  obtain ⟨-, -, rest, -, rfl⟩ := h
  exact fun p hp => Supply.bound_subset_drawAll _ hp

lemma mem (h : Around B c (.decl sym :: ds)) : (sym.id, registerFor c sym) ∈ B := by
  obtain ⟨-, -, rest, -, rfl⟩ := h
  exact Supply.bound_subset_drawAll (ds ++ rest) mem_cons_self

lemma room (h : Around B c (temps hints)) (hc : c'.supply = c.supply.drawAll (temps hints)) :
    Room B c c' := by
  refine ⟨h.bound, ?_⟩
  obtain ⟨hsettled, hlisted, rest, hplain, rfl⟩ := h
  have hbound : c'.supply.bound = c.supply.bound := by rw [hc, bound_temps]
  have hsettled' : c'.supply.Settled := by
    rw [hc]
    exact hsettled.drawAll fun sym hsym => hplain sym (mem_append_left _ hsym)
  intro p hp hint n he
  rw [Supply.drawAll_append, ← hc] at hp
  rcases Supply.mem_bound_drawAll hp with hp | hp
  · rw [hbound] at hp
    rcases (hsettled _ (hlisted p hp)).2 with hplain | ⟨hint', n', he', hle⟩
    · exact absurd he (hplain hint n)
    · obtain ⟨-, rfl⟩ := numbered_inj.1 (he.symm.trans he')
      exact .inl hle
  · have hfree := (hsettled'.names_free fun sym hsym =>
    hplain sym (mem_append_right _ hsym)).1 _ hp
    rcases hfree.2.2 with hplain | ⟨hint', n', he', hlt⟩
    · exact absurd he (hplain hint n)
    · obtain ⟨-, rfl⟩ := numbered_inj.1 (he.symm.trans he')
      exact .inr hlt

lemma test {scopes trap cond yes no l code}
    (h : Around B c (temps (Compile.hints false cond) ++ ds))
    (hc : BranchOf scopes trap cond yes no { c with labels := l } code c') :
    Room B { c with labels := l } c' ∧ Around B c' ds := by
  have hsupply := (Compile.named_branch hc).supply
  have hroom := h.left.room hsupply
  exact ⟨⟨hroom.bound, hroom.clear⟩, h.right hsupply⟩

end Around

/-! ### Parts of statements -/

section

variable {α : Type} {B : List (Nat × String)} {name : String} {tcx : Tree.Context} {cx : Context}
  {σ : Tree.Env} {ρ : Env} {all rest : List Stmt} {n : Nat}

/-- The code of a statement, if there is any, does what the tree does. -/
def Does (B : List (Nat × String)) (name : String) (cx : Context) (m : Tree.Eval Unit) :
    Option Stmt → Prop
  | none => m = pure ()
  | some s => ∀ σ ρ, Same B σ ρ → Sim B name (fun _ _ _ => True) (m σ) (s.eval cx ρ)

lemma Does.resume (h : Does B name cx m code) (hsub : labelsIn rest ⊆ labelsIn all)
    (htrap : trapOf name ∉ labelsIn all) (hs : Same B σ ρ)
    (hf : ∀ {σ' ρ'}, Same B σ' ρ' → Sim B name Q (f () σ') (Stmt.resume cx all n rest ρ')) :
    Sim B name Q ((m >>= f) σ) (Stmt.resume cx all n (code.toList ++ rest) ρ) := by
  cases code with
  | none =>
    obtain rfl : m = pure () := h
    exact hf hs
  | some s => exact (h σ ρ hs).resume hsub htrap fun _ hs => hf hs

lemma Does.finish (h : Does B name cx m code) (hsub : labelsIn rest ⊆ labelsIn all)
    (htrap : trapOf name ∉ labelsIn all) (hs : Same B σ ρ)
    (hrest : ∀ ρ', Stmt.resume cx all n rest ρ' = .ok () ρ') :
    Sim B name (fun _ _ _ => True) (m σ) (Stmt.resume cx all n (code.toList ++ rest) ρ) := by
  have hbind : Sim B name (fun _ _ _ => True) ((m >>= pure) σ)
      (Stmt.resume cx all n (code.toList ++ rest) ρ) :=
    h.resume hsub htrap hs fun {σ' ρ'} hs => hrest ρ' ▸ .ok trivial hs
  rwa [bind_pure] at hbind

lemma SimTest.resume {dest : Int32 → String} {m : Tree.Eval Int32} {s : Stmt}
    (h : SimTest B name dest (m σ) (s.eval cx ρ)) {f : Int32 → Tree.Eval α}
    {Q : α → Unit → Env → Prop} (hsub : labelsIn rest ⊆ labelsIn all)
    (htrap : trapOf name ∉ labelsIn all)
    (hf : ∀ {v σ' ρ'}, s.eval cx ρ = .error (.goto (dest v)) ρ' → Same B σ' ρ' →
      Sim B name Q (f v σ') (Stmt.resume cx all n (s :: rest) ρ)) :
    Sim B name Q ((m >>= f) σ) (Stmt.resume cx all n (s :: rest) ρ) := by
  cases hr : m σ with
  | ok v σ' =>
    rw [hr] at h
    obtain ⟨ρ', he, hs⟩ := h
    rw [bind_ok hr]
    exact hf he hs
  | error e σ' =>
    rw [hr] at h
    rw [bind_error hr]
    refine h.imp_right ?_
    rintro ⟨e', ρ', he, hshow, hw⟩
    exact ⟨e', ρ', resume_stop he hsub (hshow.escapes htrap), hshow, hw⟩

lemma sim_ifThen {cond yes test code lyes lend} (hne : lend ≠ lyes) (hlyes : lyes ≠ trapOf name)
    (hlend : lend ≠ trapOf name) (htest : test.label? = none) (hcode : labelsIn code.toList = [])
    (hcond : SimTest B name (branchTo lyes lend) (cond σ) (test.eval cx ρ))
    (hyes : Does B name cx yes code) :
    Sim B name (fun _ _ _ => True) ((do if (← cond) ≠ 0 then yes) σ)
      ((Stmt.seq (test :: .label lyes :: (code.toList ++ [.label lend]))).eval cx ρ) := by
  refine Sim.seq (show _ = [lyes, lend] by simp [labelsIn_cons, hcode, htest])
    fun {all} hlabels _ => ?_
  have htrap : trapOf name ∉ labelsIn all := by simp [hlabels, Ne.symm hlyes, Ne.symm hlend]
  refine hcond.resume ?_ htrap fun {v σ' ρ'} he hs => ?_
  · simp [hlabels, labelsIn_cons, hcode]
  by_cases hv : v = 0
  · have hskip : lend ∉ labelsIn (.label lyes :: code.toList) := by
      simpa [labelsIn_cons, hcode] using hne
    rw [hv, branchTo_zero] at he
    rw [resume_goto he cons_append.symm hskip, hv]
    exact .ok trivial hs
  · rw [branchTo_of_ne hv] at he
    rw [if_pos hv, resume_next he]
    exact hyes.finish (by simp [hlabels, labelsIn_cons]) htrap hs fun _ => rfl

lemma sim_ifElse {cond yes no test code code' lyes lno lend} (hno : lno ≠ lyes)
    (hend : lend ≠ lno) (hlyes : lyes ≠ trapOf name) (hlno : lno ≠ trapOf name)
    (hlend : lend ≠ trapOf name) (htest : test.label? = none) (hcode : labelsIn code.toList = [])
    (hcode' : labelsIn code'.toList = [])
    (hcond : SimTest B name (branchTo lyes lno) (cond σ) (test.eval cx ρ))
    (hyes : Does B name cx yes code) (helse : Does B name cx no code') :
    Sim B name (fun _ _ _ => True) ((do if (← cond) ≠ 0 then yes else no) σ)
      ((Stmt.seq (test :: .label lyes :: (code.toList ++ jumpTo lend :: .label lno ::
        (code'.toList ++ [.label lend])))).eval cx ρ) := by
  have hjump : (jumpTo lend).label? = none := rfl
  refine Sim.seq (show _ = [lyes, lno, lend] by
    simp [labelsIn_cons, hcode, hcode', htest, hjump]) fun {all} hlabels _ => ?_
  have htrap : trapOf name ∉ labelsIn all := by
    simp [hlabels, Ne.symm hlyes, Ne.symm hlno, Ne.symm hlend]
  refine hcond.resume ?_ htrap fun {v σ' ρ'} he hs => ?_
  · simp [hlabels, labelsIn_cons, hcode, hcode', hjump]
  by_cases hv : v = 0
  · have hskip : lno ∉ labelsIn (.label lyes :: (code.toList ++ [jumpTo lend])) := by
      simpa [labelsIn_cons, hcode, hjump] using hno
    have hrest : Stmt.label lyes :: (code.toList ++ jumpTo lend :: .label lno ::
        (code'.toList ++ [.label lend])) = .label lyes :: (code.toList ++ [jumpTo lend]) ++
          .label lno :: (code'.toList ++ [.label lend]) := by simp
    rw [hv, branchTo_zero] at he
    rw [resume_goto he hrest hskip, if_neg (not_not.2 hv)]
    exact helse.finish (by simp [hlabels, labelsIn_cons]) htrap hs fun _ => rfl
  · have hskip : lend ∉ labelsIn (.label lno :: code'.toList) := by
      simpa [labelsIn_cons, hcode'] using hend
    rw [branchTo_of_ne hv] at he
    rw [if_pos hv, resume_next he]
    refine hyes.finish (by simp [hlabels, labelsIn_cons, hcode', hjump]) htrap hs fun ρ' => ?_
    have hgoto : (jumpTo lend).eval cx ρ' = .error (.goto lend) ρ' := rfl
    rw [resume_goto hgoto cons_append.symm hskip, resume_nil]

lemma sim_round {cond : Tree.Eval Int32} {body next : Tree.Eval Unit} {test : Stmt}
    {code : Option Stmt} {lbegin lbody lend : String} (hend : lend ≠ lbody)
    (htrap : trapOf name ∉ labelsIn all) (hlabels : labelsIn all = [lbegin, lbody, lend])
    (hcode : labelsIn code.toList = [])
    (hcond : SimTest B name (branchTo lbody lend) (cond σ) (test.eval cx ρ))
    (hbody : Does B name cx body code)
    (hnext : ∀ {σ ρ}, Same B σ ρ → Sim B name (fun _ _ _ => True) (next σ)
      (Stmt.resume cx all n [jumpTo lbegin, .label lend] ρ)) :
    Sim B name (fun _ _ _ => True) ((do if (← cond) ≠ 0 then body; next) σ)
      (Stmt.resume cx all n (test :: .label lbody ::
        (code.toList ++ [jumpTo lbegin, .label lend])) ρ) := by
  have hjump : (jumpTo lbegin).label? = none := rfl
  refine hcond.resume ?_ htrap fun {v σ' ρ'} he hs => ?_
  · simp [hlabels, labelsIn_cons, hcode, hjump]
  by_cases hv : v = 0
  · have hskip : lend ∉ labelsIn (.label lbody :: (code.toList ++ [jumpTo lbegin])) := by
      simpa [labelsIn_cons, hcode, hjump] using hend
    have hrest : Stmt.label lbody :: (code.toList ++ [jumpTo lbegin, .label lend]) =
        .label lbody :: (code.toList ++ [jumpTo lbegin]) ++ [.label lend] := by simp
    rw [hv, branchTo_zero] at he
    rw [resume_goto he hrest hskip, if_neg (not_not.2 hv)]
    exact .ok trivial hs
  · rw [branchTo_of_ne hv] at he
    rw [if_pos hv, resume_next he]
    exact hbody.resume (by simp [hlabels, labelsIn_cons, hjump]) htrap hs hnext

lemma sim_loop {cond body test code lbegin lbody lend} (hbegin : lbegin ≠ lend)
    (hend : lend ≠ lbody) (hlbegin : lbegin ≠ trapOf name) (hlbody : lbody ≠ trapOf name)
    (hlend : lend ≠ trapOf name) (htest : test.label? = none) (hcode : labelsIn code.toList = [])
    (hcond : ∀ {σ ρ}, Same B σ ρ → SimTest B name (branchTo lbody lend) (cond σ) (test.eval cx ρ))
    (hbody : Does B name cx body code) (hs : Same B σ ρ) :
    Sim B name (fun _ _ _ => True) (Tree.Eval.repeatWhile cond body cx.budget σ)
      ((Stmt.seq (.label lbegin :: test :: .label lbody ::
        (code.toList ++ [jumpTo lbegin, .label lend]))).eval cx ρ) := by
  have hjump : (jumpTo lbegin).label? = none := rfl
  refine Sim.seq (show _ = [lbegin, lbody, lend] by
    simp [labelsIn_cons, hcode, htest, hjump]) fun {all} hlabels hall => ?_
  have htrap : trapOf name ∉ labelsIn all := by
    simp [hlabels, Ne.symm hlbegin, Ne.symm hlbody, Ne.symm hlend]
  have hgoto : ∀ ρ, (jumpTo lbegin).eval cx ρ = .error (.goto lbegin) ρ := fun _ => rfl
  have hback : lbegin ∉ labelsIn [.label lend] := by simpa [labelsIn_cons] using hbegin
  have hfirst : lbegin ∉ labelsIn ([] : List Stmt) := not_mem_nil
  rw [resume_label]
  -- Every round takes one from the budget, in the tree as in its code.
  generalize cx.budget = n
  induction n generalizing σ ρ with
  | zero =>
    rw [Tree.Eval.repeatWhile]
    refine sim_round hend htrap hlabels hcode (hcond hs) hbody fun {σ' ρ'} hs => ?_
    rw [resume_exhausted (hgoto ρ') hback (by simp [hlabels])]
    exact .inr ⟨_, _, rfl, .inl rfl, hs.world⟩
  | succ n ih =>
    rw [Tree.Eval.repeatWhile]
    refine sim_round hend htrap hlabels hcode (hcond hs) hbody fun {σ' ρ'} hs => ?_
    rw [resume_back (hgoto ρ') hback hall hfirst]
    exact ih hs

lemma sim_results (hB : OneToOne B) (h : ResultsOf scopes c i ids moves)
    (hbound : ∀ p ∈ c.bound, p ∈ B) (hids : ∀ id ∈ ids, id.Resolved seen)
    (hlen : ids.length ≤ vs.length) (hvs : ∀ j < vs.length, ρ.regs.get? (retReg (i + j)) = vs[j]?)
    (hs : Same B σ ρ) :
    Sim B name (fun _ _ _ => True) (Tree.Eval.setCells ids vs σ)
      (Stmt.resume cx all n moves ρ) := by
  induction h generalizing σ ρ vs with
  | nil =>
    rw [Tree.Eval.setCells]
    · exact .ok trivial hs
    · simp
  | @cons i id ids reg moves hreg hmoves ih =>
    cases vs with
    | nil => exact absurd hlen (by simp)
    | cons v vs =>
      obtain ⟨sym, hsym, hmem⟩ :=
        mem_of_register hreg (hids id mem_cons_self) hbound
      have hv : ρ.regs.get? (retReg i) = some v := hvs 0 (Nat.succ_pos _)
      have hmove : (Stmt.move (.temp reg) (.temp (retReg i))).eval cx ρ =
          .ok () { ρ with regs := ρ.regs.set reg v } := by
        rw [Stmt.eval]
        · rw [bind_ok (eval_temp hv)]
          rfl
        · simp
      have hcell : Tree.Eval.setCells (id :: ids) (v :: vs) σ = Tree.Eval.setCells ids vs
          { σ with cells := Function.update σ.cells sym.id (some v) } := by
        rw [Tree.Eval.setCells, Tree.Eval.declarationOf, hsym]
        rfl
      rw [hcell, resume_ok hmove]
      refine ih (fun id hid => hids id (mem_cons_of_mem _ hid))
        (Nat.le_of_succ_le_succ hlen) (fun j hj => ?_) (hs.set hB hmem v)
      rw [Registers.get?_set_of_ne _ _ (hB.ne_retReg hmem (i + 1 + j)).symm]
      have hnext := hvs (j + 1) (Nat.succ_lt_succ hj)
      rwa [← add_right_comm, add_assoc]

lemma sim_multi {span : Span} (F : Fits tcx cx) (hB : OneToOne B)
    (h : ResultsOf scopes c 1 targets moves) (hbound : ∀ p ∈ c.bound, p ∈ B)
    (hids : ∀ id ∈ targets, id.Resolved seen) (hargs : Sim B tcx.function
      (fun vs os _ => List.Forall₂ (fun v o => Operand.word? o = some v) vs os)
      (Tree.Expr.evalAll tcx args σ) (Expr.evalAll cx xs ρ)) :
    Sim B tcx.function (fun _ _ _ => True)
      ((Tree.Stmt.multi span targets callSpan callType func args).eval tcx scope σ)
      ((Stmt.seq (.call targets.length (.name func) xs :: moves)).eval cx ρ) := by
  refine Sim.seq (show _ = [] by simp [labelsIn_cons, h.labelsIn, Stmt.label?])
    fun {all} hall _ => ?_
  have htrap : trapOf tcx.function ∉ labelsIn all := by simp [hall]
  let called : Tree.Eval (List Int32) := do
    let results ← Tree.Eval.call tcx func (← Tree.Expr.evalAll tcx args)
    if results.length < targets.length then
      throw (Tree.Stop.fault (.returnCount ("NAME " ++ func) targets.length results.length))
    return results
  have hcall : Sim B tcx.function (fun vs _ ρ' => targets.length ≤ vs.length ∧
        ∃ regs : Registers, ρ'.regs = regs.setAll retReg 1 vs)
      (called σ)
      ((Stmt.call targets.length (.name func) xs).eval cx ρ) := by
    rw [Stmt.eval]
    refine hargs.bind fun {vs os σ1 ρ1} hos hs => ?_
    rw [bind_ok (takeAll_of_words hos ρ1)]
    refine (sim_call F hB hs func vs).bind fun {rs rs' σ2 ρ2} hrs hs => ?_
    obtain ⟨rfl, hregs⟩ := hrs
    by_cases hlen : rs.length < targets.length
    · have hlen' : 0 < (targets.length : Int) ∧ (rs.length : Int) < targets.length := by omega
      rw [if_pos hlen, if_pos hlen']
      exact .inr ⟨_, _, rfl, .inl (.inl rfl), hs.world⟩
    · have hlen' : ¬(0 < (targets.length : Int) ∧ (rs.length : Int) < targets.length) := by omega
      rw [if_neg hlen, if_neg hlen']
      exact .ok ⟨Nat.le_of_not_lt hlen, hregs⟩ hs
  have htree : (Tree.Stmt.multi span targets callSpan callType func args).eval tcx scope =
      called >>= Tree.Eval.setCells targets := by
    rw [Tree.Stmt.eval]
    simp only [called, bind_assoc]
    refine bind_congr fun vs => bind_congr fun rs => ?_
    split
    · simp only [bind_assoc, pure_bind]
    · rw [pure_bind]
  rw [htree]
  refine hcall.resume (by simp [h.labelsIn]) htrap fun {vs σ1 ρ1} hq hs => ?_
  obtain ⟨hlen, regs, hregs⟩ := hq
  refine sim_results hB h hbound hids hlen (fun j hj => ?_) hs
  rw [hregs]
  exact Registers.get?_setAll regs (fun _ _ => retReg_inj.1) hj 1

lemma sim_store {span : Span} (F : Fits tcx cx) (hA : ∀ p ∈ B, p.2 ≠ A) (hI : ∀ p ∈ B, p.2 ≠ I)
    (hne : A ≠ I) (hret : ∀ i, A ≠ retReg i) (hmoved : A ∉ xi.moved)
    (hyes : yes ≠ trapOf tcx.function)
    (ha : ∀ {σ ρ}, Same B σ ρ → Sim B tcx.function IsWord (array.eval tcx σ) (xa.eval cx ρ))
    (hi : ∀ {σ ρ}, Same B σ ρ → Sim B tcx.function IsWord (idx.eval tcx σ) (xi.eval cx ρ))
    (hx : ∀ {σ ρ}, Same B σ ρ → Sim B tcx.function IsWord (value.eval tcx σ) (x.eval cx ρ))
    (h : Same B σ ρ) :
    Sim B tcx.function (fun _ _ _ => True)
      ((Tree.Stmt.assign span (.index ispan type array idx) value).eval tcx scope σ)
      ((Stmt.move (.mem (.eseq (Compile.checkCode (.temp A) (.temp I) xa xi yes
        (trapOf tcx.function)) (Compile.elementAddr (.temp A) (.temp I)))) x).eval cx ρ) := by
  have htree : (Tree.Stmt.assign span (.index ispan type array idx) value).eval tcx scope =
      (do Tree.Eval.element tcx (← array.eval tcx) (← idx.eval tcx)) >>=
        fun addr => Tree.Eval.put tcx.mode addr (value.eval tcx) := by
    rw [Tree.Stmt.eval]
    simp only [bind_assoc]
  rw [Stmt.eval, Expr.eval, bind_assoc, htree]
  refine (sim_check hA hI hne hret hmoved hyes ha hi h).bind fun {addr _ σ1 ρ1} hq hs => ?_
  obtain ⟨ref, k, href, hk, rfl⟩ := hq
  rw [bind_ok (eval_elementAddr href hk), bind_ok (take_of_word rfl ρ1)]
  exact sim_storeAt F (hx hs) hs _

lemma declared_of_find? (h : scope.find? name = some sym) :
    Tree.Eval.declared scope name = pure sym.id := by
  rw [Tree.Eval.declared, h]

mutual

/-- The code of a statement does what the tree means. -/
lemma sim_stmt (F : Fits tcx cx) (hB : OneToOne B) {callee : String → Prop}
    {scope scopes s c code c' seen seen' k k'} :
    StmtOf (trapOf tcx.function) (scope :: scopes) s c code c' →
    s.Resolved callee scope seen k seen' k' → Around B c (draws (some scope) s) →
    Does B tcx.function cx (s.eval tcx scope) code
  | .block hs, .block hr, h => by
    intro σ ρ hsame
    rw [Tree.Stmt.eval]
    exact Sim.seq (Compile.labelsIn_of_stmtsOf hs) fun {all} hall _ =>
      sim_stmts F hB hs hr h (by simp [hall]) hsame
  | .declare _, .declare _ _, _ => by
    rw [Does, Tree.Stmt.eval]
  | .var hx hsym, .var hr _ _, h => by
    intro σ ρ hsame
    rw [draws, Compile.declDraws_some hsym] at h
    rw [Tree.Stmt.eval, declared_of_find? hsym]
    simp only [pure_bind]
    exact sim_moveDeclared hB (h.right (Compile.named_value hx).supply).mem
      (sim_value F hB hx hr (h.left.room (Compile.named_value hx).supply) hsame)
  | .array ha hsym, .array hz he _ _, h => by
    intro σ ρ hsame
    rw [draws, Compile.declDraws_some hsym] at h
    rw [Tree.Stmt.eval, declared_of_find? hsym]
    simp only [pure_bind]
    exact sim_array F hB ha hz he (h.left.room ha.named.supply) (h.right ha.named.supply).mem hsame
  | .assign hreg hx, .assign hid hr, h => by
    intro σ ρ hsame
    obtain ⟨sym, hsym, hmem⟩ := mem_of_register hreg hid h.bound
    rw [Tree.Stmt.eval, Tree.Eval.declarationOf, hsym]
    simp only [pure_bind]
    exact sim_moveDeclared hB hmem
      (sim_value F hB hx hr (h.room (Compile.named_value hx).supply) hsame)
  | .store ha hi hx, .assign ht hr, h => by
    intro σ ρ hsame
    rw [draws, Compile.targetHints, Compile.temps_append] at h
    have hsupply := (Compile.named_check (Compile.named_value ha) (Compile.named_value hi) ""
      "").supply
    obtain ⟨hra, hri, hA, hI, hmoved⟩ := (h.left.room hsupply).check ha hi (Nat.le_refl _)
    have hroom := (h.right hsupply).room (Compile.named_value hx).supply
    exact sim_store F hA hI (fun he => absurd (numbered_inj.1 he).2 (by omega))
      (ne_retReg_numbered _ _) hmoved (numbered_ne_trapOf _ _ _) (sim_value F hB ha ht.1 hra)
      (sim_value F hB hi ht.2 hri) (sim_value F hB hx hr hroom) hsame
  | .multi hxs hm, .multi _ hargs hids, h => by
    intro σ ρ hsame
    have hroom := h.room (Compile.named_values hxs).supply
    exact sim_multi F hB hm (bound_values hxs ▸ h.bound) hids
      (sim_values F hB hxs hargs hroom hsame)
  | .ifThen hc hy, .ifThen hrc hry, h => by
    intro σ ρ hsame
    rw [draws] at h
    obtain ⟨hroom, hrest⟩ := h.test hc
    rw [Tree.Stmt.eval]
    exact sim_ifThen (fun he => absurd (numbered_inj.1 he).2 (by omega))
      (numbered_ne_trapOf _ _ _) (numbered_ne_trapOf _ _ _) (Compile.label?_of_branchOf hc)
      (Compile.labelsIn_of_stmtOf hy)
      (sim_branch F hB hc hrc hroom (low_numbered _ (Nat.le_succ _))
        (low_numbered _ (Nat.le_refl _)) hsame)
      (sim_stmt F hB hy hry hrest)
  | .ifElse hc hy hn, .ifElse hrc hry hrn, h => by
    intro σ ρ hsame
    rw [draws, append_assoc] at h
    obtain ⟨hroom, hrest⟩ := h.test hc
    rw [Tree.Stmt.eval]
    simp only [append_assoc, cons_append, nil_append]
    exact sim_ifElse (fun he => absurd (numbered_inj.1 he).2 (by omega))
      (fun he => absurd (numbered_inj.1 he).2 (by omega))
      (numbered_ne_trapOf _ _ _) (numbered_ne_trapOf _ _ _) (numbered_ne_trapOf _ _ _)
      (Compile.label?_of_branchOf hc) (Compile.labelsIn_of_stmtOf hy)
      (Compile.labelsIn_of_stmtOf hn)
      (sim_branch F hB hc hrc hroom (low_numbered _ (Nat.add_le_add_left (by decide) _))
        (low_numbered _ (Nat.le_refl _)) hsame)
      (sim_stmt F hB hy hry hrest.left)
      (sim_stmt F hB hn hrn (hrest.right (Compile.named_stmt hy).supply))
  | .loop hc hb, .loop hrc hrb, h => by
    intro σ ρ hsame
    rw [draws] at h
    obtain ⟨hroom, hrest⟩ := h.test hc
    rw [Tree.Stmt.eval, ← F.budget]
    exact sim_loop (fun he => absurd (numbered_inj.1 he).2 (by omega))
      (fun he => absurd (numbered_inj.1 he).2 (by omega))
      (numbered_ne_trapOf _ _ _) (numbered_ne_trapOf _ _ _) (numbered_ne_trapOf _ _ _)
      (Compile.label?_of_branchOf hc) (Compile.labelsIn_of_stmtOf hb)
      (sim_branch F hB hc hrc hroom (low_numbered _ (Nat.add_le_add_left (by decide) _))
        (low_numbered _ (Nat.le_refl _)))
      (sim_stmt F hB hb hrb hrest) hsame
  | .ret hxs, .ret hr, h => by
    intro σ ρ hsame
    rw [Tree.Stmt.eval, Stmt.eval]
    refine (sim_values F hB hxs hr (h.room (Compile.named_values hxs).supply) hsame).bind
      fun {vs os σ' ρ'} hos hs => ?_
    rw [bind_ok (takeAll_of_words hos ρ')]
    exact .inr ⟨_, _, rfl, .inr (.inr ⟨vs, rfl, rfl⟩), hs.world⟩
  | .expr hx, .expr hr, h => by
    intro σ ρ hsame
    rw [Tree.Stmt.eval, Stmt.eval]
    exact (sim_value F hB hx hr (h.room (Compile.named_value hx).supply) hsame).bind
      fun _ hs => .ok trivial hs

/-- The code of statements does what they mean one after the other. -/
lemma sim_stmts (F : Fits tcx cx) (hB : OneToOne B) {callee : String → Prop}
    {scope scopes ss c codes c' seen seen' k k'} :
    StmtsOf (trapOf tcx.function) (scope :: scopes) ss c codes c' →
    Tree.Stmts.Resolved callee scope seen k ss seen' k' → Around B c (drawsAll (some scope) ss) →
    ∀ {all n σ ρ}, trapOf tcx.function ∉ labelsIn all → Same B σ ρ →
    Sim B tcx.function (fun _ _ _ => True) (Tree.Stmt.evalAll tcx scope ss σ) (Stmt.resume cx all n
      codes ρ)
  | .nil, .nil, _, _, _, _, _, _, hs => .ok trivial hs
  | .cons hs hss, .cons hr hrs, h, _, _, _, _, hall, hsame => by
    rw [Tree.Stmt.evalAll]
    refine (sim_stmt F hB hs hr h.left).resume ?_ hall hsame fun hsame =>
      sim_stmts F hB hss hrs (h.right (Compile.named_stmt hs).supply) hall hsame
    rw [Compile.labelsIn_of_stmtsOf hss]
    exact nil_subset _

end

end

end TreeMachine.Structured
