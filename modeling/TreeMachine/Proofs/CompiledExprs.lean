import TreeMachine.Proofs.Simulation

/-!
# Compiled expressions do what trees mean

The code of every expression of a resolved tree has the value that the tree has, and the
code of a test goes to the label for its truth.
-/

namespace TreeMachine.Structured

open TreeMachine.Tree
open Compile

variable {k : Nat} {l yes no : String} {v : Int32} {m : Tree.Eval Int32} {span : Span}
  {type : Option Tree.Ty} {e : Tree.Expr}

/-! ### Tests -/

/-- A label whose number, if it has one, is at most `k`. -/
def Low (k : Nat) (l : String) : Prop :=
  ∀ hint n, l = numbered hint n → n ≤ k

lemma Low.mono (h : Low k l) (hk : k ≤ k') : Low k' l :=
  fun hint n he => le_trans (h hint n he) hk

lemma low_numbered (hint : String) (h : n ≤ k) : Low k (numbered hint n) := by
  intro hint' n' he
  obtain ⟨-, rfl⟩ := numbered_inj.1 he
  exact h

lemma Low.ne (h : Low k l) (hint : String) (hn : k < n) : l ≠ numbered hint n := by
  intro he
  have := h hint n he
  omega

lemma numbered_ne_trapOf (hint : String) (n : Nat) (f : String) : numbered hint n ≠ trapOf f :=
  numbered_ne_append (c := 's') rfl rfl

def branchTo (yes no : String) (v : Int32) : String :=
  if v ≠ 0 then yes else no

lemma branchTo_of_ne (h : v ≠ 0) : branchTo yes no v = yes :=
  if_pos h

@[simp] lemma branchTo_zero (yes no : String) : branchTo yes no 0 = no :=
  if_neg fun h => h rfl

lemma branchTo_ne (hyes : yes ≠ l) (hno : no ≠ l) (v : Int32) : branchTo yes no v ≠ l := by
  unfold branchTo
  split <;> assumption

lemma branchTo_flag (yes no : String) (v : Int32) :
    branchTo yes no (if v ≠ 0 then 1 else 0) = branchTo yes no v := by
  by_cases h : v = 0
  · simp [h]
  · rw [if_pos h, branchTo_of_ne h]
    rfl

/-- The results of evaluating a tree and its code as a test agree: the code jumps to the label for
the value. -/
def SimTest (B : List (Nat × String)) (name : String) (dest : Int32 → String) :
    EStateM.Result Tree.Stop Tree.Env Int32 → EStateM.Result Stop Env Unit → Prop
  | .ok v σ, r => ∃ ρ, r = .error (.goto (dest v)) ρ ∧ Same B σ ρ
  | .error e σ, r => e = .unset ∨ ∃ e' ρ, r = .error e' ρ ∧ Shows name e e' ∧ ρ.world = σ.world

section

variable {B : List (Nat × String)} {name : String} {σ : Tree.Env} {ρ : Env} {cx : Context}

lemma SimTest.map {dest dest' : Int32 → String} {r : EStateM.Result Stop Env Unit}
    (h : SimTest B name dest (m σ) r) {f : Int32 → Int32} (hf : ∀ v, dest' (f v) = dest v) :
    SimTest B name dest' ((m >>= fun v => pure (f v)) σ) r := by
  cases hr : m σ with
  | ok v σ' =>
    rw [hr] at h
    obtain ⟨ρ, rfl, hs⟩ := h
    rw [bind_ok hr]
    exact ⟨ρ, by rw [hf], hs⟩
  | error e σ' =>
    rw [hr] at h
    rw [bind_error hr]
    exact h

lemma sim_cjump (h : Sim B name IsWord (m σ) (x.eval cx ρ)) (yes no : String) :
    SimTest B name (branchTo yes no) (m σ) ((Stmt.cjump x yes no).eval cx ρ) := by
  rw [Stmt.eval]
  cases hr : m σ with
  | ok v σ' =>
    rw [hr] at h
    obtain ⟨o, ρ', hx, ho, hs⟩ := h
    rw [bind_ok hx, bind_ok (take_of_word ho ρ')]
    exact ⟨ρ', rfl, hs⟩
  | error e σ' =>
    rw [hr] at h
    refine h.imp_right ?_
    rintro ⟨e', ρ', hx, hshow, hw⟩
    exact ⟨e', ρ', bind_error hx, hshow, hw⟩

lemma SimTest.steps (h : SimTest B name dest (m σ) (sl.eval cx ρ)) (hsl : sl.label? = none)
    (hsr : sr.label? = none) (hmid : mid ≠ trapOf name) (hto : ∀ v, dest' v ≠ mid)
    (hthen : ∀ {v σ' ρ'}, dest v = mid → Same B σ' ρ' →
      SimTest B name dest' (f v σ') (sr.eval cx ρ'))
    (helse : ∀ {v} σ', dest v ≠ mid → ∃ w, f v σ' = .ok w σ' ∧ dest' w = dest v) :
    SimTest B name dest' ((m >>= f) σ) ((Stmt.seq [sl, .label mid, sr]).eval cx ρ) := by
  have hlabels : labelsIn [sl, .label mid, sr] = [mid] := by
    simp [labelsIn, hsl, hsr]
  have hstop : ∀ {st ss e ρ1 ρ2 n}, st.eval cx ρ1 = .error e ρ2 → labelsIn ss ⊆ [mid] →
      e.Escapes [mid] → Stmt.resume cx [sl, .label mid, sr] n (st :: ss) ρ1 = .error e ρ2 :=
    fun he hss hesc => resume_stop he (by rwa [hlabels]) (by rwa [hlabels])
  have hescape : ∀ {e e'}, Shows name e e' → e'.Escapes [mid] :=
    fun hshow => hshow.escapes (by simpa using Ne.symm hmid)
  have hlast : labelsIn [Stmt.label mid, sr] ⊆ [mid] := by simp [labelsIn, hsr]
  have hnil : labelsIn ([] : List Stmt) ⊆ [mid] := List.nil_subset _
  rw [eval_seq]
  cases hr : m σ with
  | error e σ' =>
    rw [hr] at h
    rw [bind_error hr]
    refine h.imp_right ?_
    rintro ⟨e', ρ', he, hshow, hw⟩
    exact ⟨e', ρ', hstop he hlast (hescape hshow), hshow, hw⟩
  | ok v σ' =>
    rw [hr] at h
    obtain ⟨ρ', he, hs⟩ := h
    rw [bind_ok hr]
    by_cases hv : dest v = mid
    · -- the first step has gone to the second
      rw [hv] at he
      rw [resume_next he]
      have hsecond := hthen hv hs
      cases hr' : f v σ' with
      | error e σ'' =>
        rw [hr'] at hsecond
        refine hsecond.imp_right ?_
        rintro ⟨e', ρ'', he', hshow, hw⟩
        exact ⟨e', ρ'', hstop he' hnil (hescape hshow), hshow, hw⟩
      | ok w σ'' =>
        rw [hr'] at hsecond
        obtain ⟨ρ'', he', hs'⟩ := hsecond
        exact ⟨ρ'', hstop he' hnil (by simpa [Stop.Escapes] using hto w), hs'⟩
    · obtain ⟨w, hw, hto'⟩ := helse σ' hv
      rw [hw]
      exact ⟨ρ', by rw [hto', hstop he hlast (by simpa [Stop.Escapes] using hv)], hs⟩

lemma sim_flag (ht : ∀ p ∈ B, p.2 ≠ t) (hret : ∀ i, t ≠ retReg i) (hmoved : t ∉ test.moved)
    (hlabel : test.label? = none) (hyes : yes ≠ trapOf name) (hdone : done ≠ trapOf name)
    (hne : done ≠ yes) (hbool : ∀ {σ v σ'}, m σ = .ok v σ' → v = 0 ∨ v = 1)
    (htest : ∀ {σ ρ}, Same B σ ρ → SimTest B name (branchTo yes done) (m σ) (test.eval cx ρ))
    (h : Same B σ ρ) :
    Sim B name IsWord (m σ)
      ((Expr.eseq (flagCode (.temp t) test yes done) (.temp t)).eval cx ρ) := by
  have hset : ∀ (v : Int32) (ρ : Env), (Stmt.move (.temp t) (.const v)).eval cx ρ =
      .ok () { ρ with regs := ρ.regs.set t v } := fun _ _ => rfl
  have hlabels : labelsIn [.move (.temp t) (.const 0), test, .label yes, .move (.temp t) (.const 1),
      .label done] = [yes, done] := by
    rw [labelsIn_cons, labelsIn_cons, hlabel]
    rfl
  have hstart := htest (h.setOther ht 0)
  have hkeep : Holds t { ρ with regs := ρ.regs.set t 0 } (endOf (test.eval cx
      { ρ with regs := ρ.regs.set t 0 })) := holds_stmt hret hmoved _
  rw [Expr.eval, flagCode]
  cases hr : m σ with
  | error e σ' =>
    rw [hr] at hstart
    refine hstart.imp_right ?_
    rintro ⟨e', ρ', he, hshow, hw⟩
    refine ⟨e', ρ', bind_error ?_, hshow, hw⟩
    rw [eval_seq, resume_ok (hset 0 ρ)]
    refine resume_stop he ?_ (hshow.escapes ?_)
    · rw [hlabels]
      exact List.Subset.refl [yes, done]
    · simp [hlabels, Ne.symm hyes, Ne.symm hdone]
  | ok v σ' =>
    rw [hr] at hstart
    obtain ⟨ρ', he, hs⟩ := hstart
    rw [he] at hkeep
    replace hkeep := hkeep 0 (Registers.get?_set_self _ _ _)
    rcases hbool hr with rfl | rfl
    · -- the test has gone past the move
      refine ⟨.reg t (some 0), ρ', ?_, rfl, hs⟩
      have hskip : done ∉ labelsIn [.label yes, .move (.temp t) (.const 1)] := by
        simpa [labelsIn, Stmt.label?] using hne
      have hcode : (Stmt.seq [.move (.temp t) (.const 0), test, .label yes,
          .move (.temp t) (.const 1), .label done]).eval cx ρ = .ok () ρ' := by
        rw [eval_seq, resume_ok (hset 0 ρ)]
        exact resume_forward he hskip
      rw [bind_ok hcode]
      exact eval_temp hkeep
    · rw [show branchTo yes done 1 = yes from rfl] at he
      refine ⟨.reg t (some 1), { ρ' with regs := ρ'.regs.set t 1 }, ?_, rfl, hs.setOther ht 1⟩
      have hcode : (Stmt.seq [.move (.temp t) (.const 0), test, .label yes,
          .move (.temp t) (.const 1), .label done]).eval cx ρ =
            .ok () { ρ' with regs := ρ'.regs.set t 1 } := by
        rw [eval_seq, resume_ok (hset 0 ρ), resume_next he, resume_ok (hset 1 ρ'), resume_label,
          resume_nil]
      rw [bind_ok hcode]
      exact eval_temp (Registers.get?_set_self _ _ _)

end

/-! ### Trees -/

section

variable {tcx : Tree.Context} {σ σ' : Tree.Env}

lemma eval_binary (h : wordOp op = some wop) :
    (Tree.Expr.binary span type op left right).eval tcx = (do
      let l ← left.eval tcx
      let r ← right.eval tcx
      Tree.Eval.ofResult (Word.binop wop l r)) := by
  cases op <;> cases h <;> rfl

lemma eval_unary (h : wordUnOp op = some wop) :
    (Tree.Expr.unary span type op x).eval tcx = (do return Word.unop wop (← x.eval tcx)) := by
  cases op <;> cases h <;> rfl

lemma zero_or_one_of_map [DecidablePred p] (ha : a = 0 ∨ a = 1) (hb : b = 0 ∨ b = 1)
    (h : (m >>= fun w => pure (if p w then a else b)) σ = .ok v σ') : v = 0 ∨ v = 1 := by
  obtain ⟨w, σ1, hm, h⟩ := bind_eq_ok h
  cases h
  split
  · exact ha
  · exact hb

lemma zero_or_one (hl : Logical e) (h : e.eval tcx σ = .ok v σ') : v = 0 ∨ v = 1 := by
  have hstep : ∀ {m : Tree.Eval Int32} {f : Int32 → Tree.Eval Int32},
      (∀ {w σ1}, f w σ1 = .ok v σ' → v = 0 ∨ v = 1) → (m >>= f) σ = .ok v σ' → v = 0 ∨ v = 1 := by
    intro m f hf h
    obtain ⟨w, σ1, hm, h⟩ := bind_eq_ok h
    exact hf h
  have hpure : ∀ {w : Int32} {σ1 : Tree.Env}, (pure w : Tree.Eval Int32) σ1 = .ok v σ' → v = w := by
    intro w σ1 h
    cases h
    rfl
  unfold Logical at hl
  split at hl
  · rw [Tree.Expr.eval] at h
    refine hstep (fun {w σ1} h => ?_) h
    split at h
    · exact zero_or_one_of_map (.inr rfl) (.inl rfl) h
    · exact .inl (hpure h)
  · rw [Tree.Expr.eval] at h
    refine hstep (fun {w σ1} h => ?_) h
    split at h
    · exact .inr (hpure h)
    · exact zero_or_one_of_map (.inr rfl) (.inl rfl) h
  · rw [Tree.Expr.eval] at h
    exact zero_or_one_of_map (.inl rfl) (.inr rfl) h
  · exact hl.elim

end

/-! ### Expressions -/

/-- All registers of declarations, around code that is compiled from `c` to `c'`. -/
structure Room (B : List (Nat × String)) (c c' : Compiling) : Prop where
  bound : ∀ p ∈ c.bound, p ∈ B
  clear : Clear B c.temps c'.temps

lemma bound_temps (s : Supply) (hs : List String) : (s.drawAll (temps hs)).bound = s.bound := by
  induction hs generalizing s with
  | nil => rfl
  | cons h hs ih => exact ih _

section

variable {scopes : List Scope} {trap : String} {c c1 c' : Compiling} {B : List (Nat × String)}

lemma bound_value (h : ValueOf scopes trap e c x c') : c'.bound = c.bound := by
  have hs := congrArg Supply.bound (named_value h).supply
  rwa [bound_temps] at hs

lemma bound_branch (h : BranchOf scopes trap e yes no c s c') : c'.bound = c.bound := by
  have hs := congrArg Supply.bound (named_branch h).supply
  rwa [bound_temps] at hs

lemma bound_values (h : ValuesOf scopes trap es c xs c') : c'.bound = c.bound := by
  have hs := congrArg Supply.bound (named_values h).supply
  rwa [bound_temps] at hs

lemma Room.split (h : Room B c c') (hle : c.temps ≤ c1.temps) (hle' : c1.temps ≤ c'.temps)
    (hb : c1.bound = c.bound) : Room B c c1 ∧ Room B c1 c' :=
  ⟨⟨h.bound, h.clear.mono le_rfl hle'⟩, ⟨hb ▸ h.bound, h.clear.mono hle le_rfl⟩⟩

lemma Room.check (ha : ValueOf scopes trap array c xa ca) (hi : ValueOf scopes trap idx ca xi ci)
    (hle : ci.temps + 2 ≤ c'.temps) (h : Room B c c') :
    Room B c ca ∧ Room B ca ci ∧ (∀ p ∈ B, p.2 ≠ numbered "aA" (ci.temps + 1)) ∧
      (∀ p ∈ B, p.2 ≠ numbered "aI" (ci.temps + 2)) ∧
      numbered "aA" (ci.temps + 1) ∉ xi.moved := by
  have hla := (moved_value ha).1
  have hli := (moved_value hi).1
  obtain ⟨hra, hrest⟩ := h.split hla (by omega) (bound_value ha)
  obtain ⟨hri, hrest⟩ := hrest.split hli (by omega) (bound_value hi)
  refine ⟨hra, hri, hrest.clear.ne "aA" (by omega) (by omega),
    hrest.clear.ne "aI" (by omega) (by omega), fun hmem => ?_⟩
  obtain ⟨hint, n, he, -, hle⟩ := (moved_value hi).2 _ hmem
  have := (numbered_inj.1 he).2
  omega

lemma mem_of_register {id reg} (h : Register scopes c id reg) {seen}
    (hid : id.Resolved seen) (hB : ∀ p ∈ c.bound, p ∈ B) :
    ∃ sym, id.symbol = some sym ∧ (sym.id, reg) ∈ B := by
  obtain ⟨sym, hsym, hb⟩ := h
  obtain ⟨sym', hsym', -⟩ := hid
  rw [hsym'] at hsym
  obtain rfl : sym' = sym := by simpa using hsym
  obtain ⟨l1, l2, hsplit, -⟩ := List.lookup_eq_some_iff.1 hb
  exact ⟨sym', hsym', hB _ (by simp [hsplit])⟩

end

section

variable {B : List (Nat × String)} {tcx : Tree.Context} {cx : Context} {scopes : List Scope}
  {callee : String → Prop} {seen : List Nat}

lemma sim_ident {id reg sym} (hsym : id.symbol = some sym) (hreg : (sym.id, reg) ∈ B) {σ ρ}
    (h : Same B σ ρ) :
    Sim B tcx.function IsWord ((Tree.Expr.ident id).eval tcx σ) ((Expr.temp reg).eval cx ρ) := by
  have hcell := h.cells _ hreg
  have htree : (Tree.Expr.ident id).eval tcx σ = Tree.Eval.readCell sym.id σ := by
    rw [Tree.Expr.eval, Tree.Eval.declarationOf, hsym]
    rfl
  rw [htree, Tree.Eval.readCell, Expr.eval, Eval.readRegister, hcell]
  cases σ.cells sym.id with
  | none => exact .inl rfl
  | some v => exact .ok rfl h

lemma sim_index (hA : ∀ p ∈ B, p.2 ≠ A) (hI : ∀ p ∈ B, p.2 ≠ I) (hne : A ≠ I)
    (hret : ∀ i, A ≠ retReg i) (hmoved : A ∉ xi.moved) (hyes : yes ≠ trapOf tcx.function)
    (ha : ∀ {σ ρ}, Same B σ ρ → Sim B tcx.function IsWord (array.eval tcx σ) (xa.eval cx ρ))
    (hi : ∀ {σ ρ}, Same B σ ρ → Sim B tcx.function IsWord (idx.eval tcx σ) (xi.eval cx ρ))
    (h : Same B σ ρ) :
    Sim B tcx.function IsWord ((Tree.Expr.index span type array idx).eval tcx σ)
      ((Expr.eseq (checkCode (.temp A) (.temp I) xa xi yes (trapOf tcx.function))
        (.mem (elementAddr (.temp A) (.temp I)))).eval cx ρ) := by
  have htree : (Tree.Expr.index span type array idx).eval tcx =
      (do Tree.Eval.element tcx (← array.eval tcx) (← idx.eval tcx)) >>= Tree.Eval.load := by
    rw [Tree.Expr.eval]
    simp only [bind_assoc]
  rw [htree, Expr.eval]
  refine (sim_check hA hI hne hret hmoved hyes ha hi h).bind fun {addr _ σ1 ρ1} hq hs => ?_
  obtain ⟨ref, k, href, hk, rfl⟩ := hq
  rw [Expr.eval, bind_ok (eval_elementAddr href hk), bind_ok (take_of_word rfl ρ1)]
  refine (sim_load hs _).andThen fun {v w σ2 ρ2} hv hs => ?_
  exact .ok (congrArg some hv.symm) hs

lemma sim_binary (hop : wordOp op = some wop)
    (hl : ∀ {σ ρ}, Same B σ ρ → Sim B tcx.function IsWord (left.eval tcx σ) (xl.eval cx ρ))
    (hr : ∀ {σ ρ}, Same B σ ρ → Sim B tcx.function IsWord (right.eval tcx σ) (xr.eval cx ρ))
    (h : Same B σ ρ) :
    Sim B tcx.function IsWord ((Tree.Expr.binary span type op left right).eval tcx σ)
      ((Expr.binop wop xl xr).eval cx ρ) := by
  rw [eval_binary hop, Expr.eval]
  refine (hl h).bind fun {l ol σ1 ρ1} hol hs => (hr hs).bind fun {r or σ2 ρ2} hor hs => ?_
  rw [bind_ok (take_of_word hol ρ2), bind_ok (take_of_word hor ρ2)]
  cases Word.binop wop l r with
  | ok v => exact .ok rfl hs
  | error c => exact .inr ⟨_, _, rfl, .inl (.inl rfl), hs.world⟩

lemma sim_callExpr (F : Fits tcx cx) (hB : OneToOne B)
    (hxs : ∀ {σ ρ}, Same B σ ρ → Sim B tcx.function
      (fun vs os _ => List.Forall₂ (fun v o => Operand.word? o = some v) vs os)
      (Tree.Expr.evalAll tcx args σ) (Expr.evalAll cx xs ρ)) (h : Same B σ ρ) :
    Sim B tcx.function IsWord ((Tree.Expr.call span type func args).eval tcx σ)
      ((Expr.call (.name func) xs).eval cx ρ) := by
  rw [Tree.Expr.eval, Expr.eval]
  refine (hxs h).bind fun {vs os σ1 ρ1} hvs hs => ?_
  rw [bind_ok (takeAll_of_words hvs ρ1)]
  refine (sim_call F hB hs func vs).bind fun {rs rs' σ2 ρ2} hrs hs => ?_
  obtain ⟨rfl, -⟩ := hrs
  exact .ok rfl hs

mutual

/-- The code of an expression has its value. -/
lemma sim_value (F : Fits tcx cx) (hB : OneToOne B) {e c x c'} :
    ValueOf scopes (trapOf tcx.function) e c x c' → e.Resolved callee seen → Room B c c' →
    ∀ {σ ρ}, Same B σ ρ → Sim B tcx.function IsWord (e.eval tcx σ) (x.eval cx ρ)
  | .int, _, _, _, _, h => .ok rfl h
  | .bool, _, _, _, _, h => .ok rfl h
  | .string, _, hroom, _, _, h => by
    rw [Tree.Expr.eval, Expr.eval]
    have hne := hroom.clear.ne "aB" (n := c.temps + 1) (by omega) le_rfl
    refine (sim_literal F hB hne (ne_retReg_numbered _ _) ?_ h).andThen
      fun {ref _ σ1 ρ1} hq hs => ?_
    · refine List.forall₂_map_left_iff.2 (List.forall₂_map_right_iff.2 ?_)
      exact List.forall₂_same.2 fun ch _ => ⟨fun hs => .ok rfl hs, by simp [Expr.moved]⟩
    · obtain ⟨a, ha, rfl⟩ := hq
      rw [eval_reference ha]
      exact .ok rfl hs
  | .ident hreg, hres, hroom, _, _, h => by
    obtain ⟨sym, hsym, hmem⟩ := mem_of_register hreg hres hroom.bound
    exact sim_ident hsym hmem h
  | .index ha hi, hres, hroom, _, _, h => by
    obtain ⟨hra, hri, hA, hI, hmoved⟩ := hroom.check ha hi le_rfl
    exact sim_index hA hI (fun he => absurd (numbered_inj.1 he).2 (by omega))
      (ne_retReg_numbered _ _) hmoved (numbered_ne_trapOf _ _ _) (sim_value F hB ha hres.1 hra)
      (sim_value F hB hi hres.2 hri) h
  | .binary hop hl hr, hres, hroom, _, _, h => by
    obtain ⟨hrl, hrr⟩ := hroom.split (moved_value hl).1 (moved_value hr).1 (bound_value hl)
    exact sim_binary hop (sim_value F hB hl hres.1 hrl) (sim_value F hB hr hres.2 hrr) h
  | .unary hop hx, hres, hroom, _, _, h => by
    rw [eval_unary hop, Expr.eval]
    refine (sim_value F hB hx hres hroom h).bind fun {v o σ1 ρ1} ho hs => ?_
    rw [bind_ok (take_of_word ho ρ1)]
    exact .ok rfl hs
  | .flag hlog hb, hres, hroom, _, _, h => by
    have hlb := (moved_branch hb).1
    have hne := hroom.clear.ne "b" (n := c.temps + 1) (by omega) hlb
    refine sim_flag hne (ne_retReg_numbered _ _) ?_ (label?_of_branchOf hb)
      (numbered_ne_trapOf _ _ _) (numbered_ne_trapOf _ _ _) ?_ (zero_or_one hlog) ?_ h
    · intro hmem
      obtain ⟨hint, n, he, hlt, -⟩ := (moved_branch hb).2 _ hmem
      have := (numbered_inj.1 he).2
      simp only at hlt
      omega
    · exact fun he => absurd (numbered_inj.1 he).2 (by omega)
    · exact sim_branch F hB hb hres
        ⟨hroom.bound, hroom.clear.mono (by show _ ≤ c.temps + 1; omega) le_rfl⟩
        (low_numbered _ (by show _ ≤ c.labels + 2; omega)) (low_numbered _ le_rfl)
  | .call hs, hres, hroom, _, _, h =>
    sim_callExpr F hB (sim_values F hB hs hres.2 hroom) h

/-- The code of a test goes to the label for its truth. -/
lemma sim_branch (F : Fits tcx cx) (hB : OneToOne B) {e yes no c s c'} :
    BranchOf scopes (trapOf tcx.function) e yes no c s c' → e.Resolved callee seen → Room B c c' →
    Low c.labels yes → Low c.labels no → ∀ {σ ρ}, Same B σ ρ →
    SimTest B tcx.function (branchTo yes no) (e.eval tcx σ) (s.eval cx ρ)
  | .bool (v := v), _, _, _, _, _, ρ, h => by
    cases v <;> exact ⟨ρ, rfl, h⟩
  | .and hl hr, hres, hroom, hyes, hno, _, _, h => by
    have hyes' := hyes.ne "and.rhs" (Nat.lt_succ_self _)
    have hno' := hno.ne "and.rhs" (Nat.lt_succ_self _)
    have hbound := bound_branch hl
    obtain ⟨hrl, hrr⟩ := hroom.split (moved_branch hl).1 (moved_branch hr).1 hbound
    have hlow : c.labels + 1 ≤ _ := (made_branch hl).le
    rw [Tree.Expr.eval]
    refine (sim_branch F hB hl hres.1 ⟨hrl.bound, hrl.clear⟩ (low_numbered _ le_rfl)
      (hno.mono (Nat.le_succ _)) h).steps (label?_of_branchOf hl)
      (label?_of_branchOf hr) (numbered_ne_trapOf _ _ _) (branchTo_ne hyes' hno')
      (fun {v σ1 ρ1} hv hs => ?_) fun {v} σ1 hv => ?_
    · have hne : v ≠ 0 := fun he => hno' (by simpa [he] using hv)
      rw [if_pos hne]
      exact (sim_branch F hB hr hres.2 hrr (hyes.mono (Nat.le_of_succ_le hlow))
        (hno.mono (Nat.le_of_succ_le hlow)) hs).map (branchTo_flag yes no)
    · have hzero : v = 0 := not_not.1 fun hne => hv (branchTo_of_ne hne)
      exact ⟨0, by rw [if_neg (not_not.2 hzero)]; rfl, by simp [hzero]⟩
  | .or hl hr, hres, hroom, hyes, hno, _, _, h => by
    have hyes' := hyes.ne "or.rhs" (Nat.lt_succ_self _)
    have hno' := hno.ne "or.rhs" (Nat.lt_succ_self _)
    have hbound := bound_branch hl
    obtain ⟨hrl, hrr⟩ := hroom.split (moved_branch hl).1 (moved_branch hr).1 hbound
    have hlow : c.labels + 1 ≤ _ := (made_branch hl).le
    rw [Tree.Expr.eval]
    refine (sim_branch F hB hl hres.1 ⟨hrl.bound, hrl.clear⟩ (hyes.mono (Nat.le_succ _))
      (low_numbered _ le_rfl) h).steps (label?_of_branchOf hl)
      (label?_of_branchOf hr) (numbered_ne_trapOf _ _ _) (branchTo_ne hyes' hno')
      (fun {v σ1 ρ1} hv hs => ?_) fun {v} σ1 hv => ?_
    · have hzero : v = 0 := not_not.1 fun hne => hyes' ((branchTo_of_ne hne).symm.trans hv)
      rw [if_neg (not_not.2 hzero)]
      exact (sim_branch F hB hr hres.2 hrr (hyes.mono (Nat.le_of_succ_le hlow))
        (hno.mono (Nat.le_of_succ_le hlow)) hs).map (branchTo_flag yes no)
    · have hne : v ≠ 0 := fun he => hv (by simp [he])
      exact ⟨1, by rw [if_pos hne]; rfl, by rw [branchTo_of_ne hne]; rfl⟩
  | .not hx, hres, hroom, hyes, hno, _, _, h => by
    rw [Tree.Expr.eval]
    refine (sim_branch F hB hx hres hroom hno hyes h).map fun v => ?_
    simp only [branchTo]
    split <;> simp_all
  | .test _ hx, hres, hroom, _, _, _, _, h =>
    sim_cjump (sim_value F hB hx hres hroom h) _ _

/-- The code of expressions has their values, in order. -/
lemma sim_values (F : Fits tcx cx) (hB : OneToOne B) {es c xs c'} :
    ValuesOf scopes (trapOf tcx.function) es c xs c' → Tree.Expr.ResolvedAll callee seen es →
    Room B c c' → ∀ {σ ρ}, Same B σ ρ →
    Sim B tcx.function (fun vs os _ => List.Forall₂ (fun v o => Operand.word? o = some v) vs os)
      (Tree.Expr.evalAll tcx es σ) (Expr.evalAll cx xs ρ)
  | .nil, _, _, _, _, h => .ok .nil h
  | .cons hx hs, hres, hroom, _, _, h => by
    obtain ⟨hrx, hrs⟩ := hroom.split (moved_value hx).1 (moved_values hs).1 (bound_value hx)
    rw [Tree.Expr.evalAll, Expr.evalAll]
    refine (sim_value F hB hx hres.1 hrx h).bind fun {v o σ1 ρ1} ho hs' =>
      (sim_values F hB hs hres.2 hrs hs').bind fun {vs os σ2 ρ2} hos hs' => ?_
    exact .ok (.cons ho hos) hs'

end

end

end TreeMachine.Structured
