import TreeMachine.Proofs.Checks
import TreeMachine.Proofs.SizedArrays
import TreeMachine.Proofs.TreeEvaluation

/-!
# Accesses to elements of arrays

A read of an element leaves the word at the element's address, and an assignment replaces this
word and no other. Both hold just of the indices that the array has: with any other index the
run fails, an assignment before its value is looked at. This is proved of all accesses in the
structured code of a resolved program and of their lowered forms, in every run and wherever the
access stands.

In lowered code the check comes first and the rest of the access later. The address is then
either still there to be computed, or it has been saved in a register that the code of the value
does not move to.
-/

open List

namespace TreeMachine.Heap

variable {h h' : Heap} {a : Int32}

lemma Accessible.grows (ha : h.Accessible a) (hg : h.Grows h') : h'.Accessible a := by
  obtain ⟨hdvd, hlo, hhi⟩ := ha
  have hused := hg.used
  exact ⟨hdvd, hlo, by omega⟩

/-- One word has been replaced, and nothing else. -/
structure Replaced (h h' : Heap) (a v : Int32) : Prop where
  load : h'.load a = .ok v
  kept : ∀ b, b ≠ a → h'.load b = h.load b
  used : h'.used = h.used
  limit : h'.limit = h.limit

lemma replaced_of_store (hs : h.store a v = .ok h') : h.Replaced h' a v := by
  obtain ⟨hload, hkept⟩ := load_of_store hs
  obtain ⟨-, rfl⟩ := store_eq_ok_iff.1 hs
  exact ⟨hload, hkept, used_write _ _ _, limit_write _ _ _⟩

end TreeMachine.Heap

namespace TreeMachine.Structured

open Compile (checkCode elementAddr)

section

variable {cx : Context} {ρ ρ' : Env} {src : Expr} {v : Int32}

lemma grows_word (hcall : CallsGrow cx.call) (x : Expr) : Eval.Along Grows (x.word cx) :=
  (course_grows hcall).bind (grows_expr hcall x) fun o => (course_grows hcall).take _ o

lemma eval_of_eval_single (hl : labelsIn [st] = []) (h : (Stmt.seq [st]).eval cx ρ = .ok () ρ') :
    st.eval cx ρ = .ok () ρ' := by
  rw [eval_seq] at h
  cases he : st.eval cx ρ with
  | ok x ρ1 => rwa [resume_ok he, resume_nil] at h
  | error e ρ1 =>
    rw [resume_stop he (nil_subset _) (hl ▸ e.escapes_nil)] at h
    cases h

lemma again_cons (hl : st.label? = none) (all : List Stmt) (n : Nat) :
    Stmt.again cx (st :: all) n = Stmt.again cx all n := by
  have hlabels : labelsIn (st :: all) = labelsIn all := by simp [labelsIn_cons, hl]
  induction n with
  | zero =>
    funext o
    cases o with
    | none => rfl
    | some l => simp only [Stmt.again, hlabels]
  | succ n ih =>
    funext o
    cases o with
    | none => rfl
    | some l =>
      have hskip : Stmt.evalSeq cx (st :: all) (some l) = Stmt.evalSeq cx all (some l) := by
        rw [Stmt.evalSeq, if_neg (by simp [hl])]
      rw [Stmt.again, Stmt.again, loop_eq, loop_eq, hskip, ih, hlabels]

lemma eval_seq_cons (hl : st.label? = none) (h : st.eval cx ρ = .ok () ρ') :
    (Stmt.seq (st :: ss)).eval cx ρ = (Stmt.seq ss).eval cx ρ' := by
  rw [eval_seq, eval_seq, resume_ok h, Stmt.resume, Stmt.resume, again_cons hl]

lemma storeAt_of_accessible (hlax : cx.mode.lax = false) (hcall : CallsGrow cx.call)
    (ha : ρ.world.heap.Accessible a) (hv : src.word cx ρ = .ok v ρ') :
    ∃ heap, ρ'.world.heap.store a v = .ok heap ∧
      Stmt.storeAt cx src a ρ = .ok () { ρ' with world := { ρ'.world with heap } } := by
  have hcheck : Eval.checkTarget src a ρ = .ok () ρ := by
    simp only [Eval.checkTarget, Heap.load_of_accessible ha]
  have hgrows := grows_word hcall src ρ
  rw [hv] at hgrows
  have hacc : ρ'.world.heap.Accessible a := ha.grows hgrows
  refine ⟨_, Heap.store_of_accessible hacc v, ?_⟩
  rw [storeAt_strict hlax, bind_ok hcheck]
  have hsrc : (src.eval cx >>= fun o => Eval.take cx.mode.care o >>= fun w =>
    Eval.onWorld (World.store a w)) = src.word cx >>= fun w => Eval.onWorld (World.store a w) := by
    rw [Expr.word, bind_assoc]
  rw [hsrc, bind_ok hv]
  simp only [Eval.onWorld, World.store, World.inspect, Heap.locate_of_accessible hacc, bind,
    EStateM.bind]
  rfl

end

end TreeMachine.Structured

namespace TreeMachine.Flat

open Structured.Compile

/-- The address of an element whose array and index are in registers. -/
def elementAt (A I : String) : Expr :=
  .binop .add (.temp A) (.binop .mul (.const 4) (.temp I))

lemma lift_elementAt (A I : String) : (elementAt A I).lift = elementAddr (.temp A) (.temp I) := rfl

end TreeMachine.Flat

namespace TreeMachine.Machine

open Structured
open Structured.Compile
open Linear

/-! ### The address and the element -/

section

variable {M : Setup} {s : State} {ρ : Env} {S : Operands} {t : List Called} {A I : String} {c : Nat}
  {ref k : Int32}

lemma reaches_address (hlo : s.frame.fn.start ≤ c) (hhi : c + 5 ≤ s.frame.fn.stop)
    (hp : Placed M.program c (itemsOfExpr (elementAddr (.temp A) (.temp I))))
    (hA : ρ.regs.get? A = some ref) (hI : ρ.regs.get? I = some k) :
    Reaches M (s.stand c ρ S t) (s.stand (c + 5) ρ (S.push (.value (ref + 4 * k))) t) := by
  obtain ⟨h0, h1, h2, h3, h4, -⟩ := hp
  have htakeA : Eval.take .fills (.reg A (some ref)) ρ = .ok ref ρ := rfl
  have htake4 : Eval.take .fills (.value 4) ρ = .ok 4 ρ := rfl
  have htakeI : Eval.take .fills (.reg I (some k)) ρ = .ok k ρ := rfl
  have htakeOffset : Eval.take .fills (.value (4 * k)) ρ = .ok (4 * k) ρ := rfl
  have hmul : Word.binop .mul 4 k = .ok (4 * k) := rfl
  have hadd : Word.binop .add ref (4 * k) = .ok (ref + 4 * k) := rfl
  have hoffset := exec_binop (p := M.program) (s := s) (a := c + 1 + 1 + 1)
    (S := S.push (.reg A (some ref))) (t := t) (x := Structured.Compile.word) (y := .temp I) .mul
    htake4 htakeI
  rw [hmul] at hoffset
  have haddr := exec_binop (p := M.program) (s := s) (a := c + 1 + 1 + 1 + 1) (S := S) (t := t)
    (x := .temp A) (y := Structured.Compile.times Structured.Compile.word (.temp I)) .add htakeA
    htakeOffset
  rw [hadd] at haddr
  refine ⟨5, .head trivial (step_next hlo (by omega) h0 (exec_temp A)) ?_⟩
  refine .head trivial (step_next (by omega) (by omega) h1 exec_const) ?_
  refine .head trivial (step_next (by omega) (by omega) h2 (exec_temp I)) ?_
  rw [hA, hI]
  refine .head trivial (step_next (by omega) (by omega) h3 hoffset) ?_
  exact .head trivial (step_next (by omega) (by omega) h4 haddr) (.refl _)

lemma reaches_element (hlo : s.frame.fn.start ≤ c) (hhi : c + 6 ≤ s.frame.fn.stop)
    (hp : Placed M.program c (itemsOfExpr (.mem (elementAddr (.temp A) (.temp I)))))
    (hA : ρ.regs.get? A = some ref) (hI : ρ.regs.get? I = some k)
    (hw : ρ.world.heap.load (ref + 4 * k) = .ok w) :
    Reaches M (s.stand c ρ S t) (s.stand (c + 6) ρ (S.push (.mem (ref + 4 * k) w)) t) := by
  obtain ⟨haddr, hmem⟩ := hp.append
  have hload := exec_mem (p := M.program) (s := s) (a := c + 5) (S := S) (t := t)
    (x := elementAddr (.temp A) (.temp I))
    (rfl : Eval.take .fills (.value (ref + 4 * k)) ρ = .ok (ref + 4 * k) ρ)
  rw [hw] at hload
  exact (reaches_address hlo (by omega) haddr hA hI).trans
    ⟨1, .head trivial (step_next (by omega) (by omega) hmem.1 hload) (.refl _)⟩

end

/-! ### What an access does -/

/-- A run of the code of a unit is in a function. The limit of its heap is the address of a
word. -/
structure Running (M : Setup) (u : CodeUnit) (g : Function) (s : State) : Prop where
  program : Program.ofUnit u = .ok M.program
  member : g ∈ u.functions
  holds : Program.Holds M.program g s.frame.fn
  start : ∃ s0, Started M u s0 ∧ s0.world.heap.limit < 2 ^ 31 ∧ Reaches M s0 s

lemma Running.inside (h : Running M u g s) : Inside M u g s := by
  obtain ⟨s0, h0, -, hs⟩ := h.start
  exact ⟨h.program, h.member, h.holds, s0, h0, hs⟩

/-- An access is checked exactly: when the array has been evaluated to a reference and the index
to a number, an index in range gets the access to the address of its element, and every other
one is refused where the index has been computed. -/
def Exact (M : Setup) (s : State) (cx : Context) (A I : String) (sa si : List Stmt) (lo : Nat)
    (access : Int32 → Env → Prop) : Prop :=
  ∀ ref n k ρ, Evaluates cx A I sa si s.env ref n k ρ →
    (0 ≤ k.toInt ∧ k.toInt < n.toInt →
      ∃ a : Int32, a.toInt = ref.toInt + 4 * k.toInt ∧ access a ρ) ∧
    (¬(0 ≤ k.toInt ∧ k.toInt < n.toInt) →
      Refuses M s (lo + extent (itemsOfAll (sa ++ si))) ρ)

/-- The word at an address gets onto the stack, and the run to the address `b`. -/
def Yields (M : Setup) (s : State) (b : Nat) (a : Int32) (ρ : Env) : Prop :=
  ∃ w t, ρ.world.heap.load a = .ok w ∧ Reaches M s (s.stand b ρ (s.operands.push (.mem a w)) t)

/-- The run comes to the code of the right side, at the address `b`, as the check has left things.
When that has been evaluated, it replaces the word at an address and goes on at `b'`. -/
structure Stores (M : Setup) (s : State) (cx : Context) (rest : List Stmt) (src : Expr) (b b' : Nat)
    (a : Int32) (ρ : Env) : Prop where
  comes : ∃ S t, Reaches M s (s.stand b ρ S t)
  replaces : ∀ {ρ1 ρ2 : Env} {v : Int32}, (Stmt.seq rest).eval cx ρ = .ok () ρ1 →
    src.word cx ρ1 = .ok v ρ2 → ∃ heap t, ρ2.world.heap.Replaced heap a v ∧
      Reaches M s (s.stand b' { ρ2 with world := { ρ2.world with heap } } s.operands t)

section

variable {M : Setup} {u : CodeUnit} {g : Function} {s : State} {fuel : Nat} {A I yes : String}
  {sa si : List Stmt} {lo : Nat} {esc scope : List String}

lemma grows_of_evaluates (he : Evaluates (s.context u M fuel) A I sa si s.env ref n k ρ) :
    s.world.heap.Grows ρ.world.heap := by
  have hgrows : ∀ st : Stmt, Eval.Along Grows (st.eval (s.context u M fuel)) := fun st =>
    grows_stmt (grows_call u _ _ _ _ _) st
  obtain ⟨ρ1, ha, -, hi, -⟩ := he
  have hga := hgrows (.seq sa) s.env
  have hgi := hgrows (.seq si) ρ1
  rw [ha] at hga
  rw [hi] at hgi
  exact Heap.Grows.trans hga hgi

/-- An access is checked exactly if it does its work once the check is passed. -/
lemma Running.exact (h : Running M u g s) (hconf : ∀ f ∈ u.functions, f.Confined (Callable u))
    (hroutine : M.program.labels["_outOfBounds"]? = none)
    (hc : CheckAt M (Callable u) s.frame.fn A I yes sa si lo esc scope) (hip : s.frame.ip = lo)
    (hpass : ∀ {ref n k ρ t}, Evaluates (s.context u M fuel) A I sa si s.env ref n k ρ →
      ρ.regs.get? A = some ref → k.toUInt32 < n.toUInt32 →
      ρ.world.heap.Accessible (ref + 4 * k) →
      Reaches M s (s.stand (lo + extent (itemsOfAll (sa ++ si)) + 7) ρ s.operands t) →
      access (ref + 4 * k) ρ) : Exact M s (s.context u M fuel) A I sa si lo access := by
  intro ref n k ρ he
  obtain ⟨s0, h0, hb, hs⟩ := h.start
  have harray := he.arrayAt
  have hlt := Heap.toUInt32_lt_iff (k := k) harray.nonneg
  refine ⟨fun hk => ?_, fun hk => ?_⟩
  · obtain ⟨t, hrun⟩ := hc.passes h.program hconf h0 hs hip he.indexes harray.length (hlt.2 hk)
    obtain ⟨hA, -⟩ := hc.computes h.program hconf h0 hs hip he.indexes
    have hlimit := ((grows_of_reaches hs).trans (grows_of_evaluates he)).limit
    obtain ⟨haddr, hacc⟩ := harray.element (Heap.used_lt _ (hlimit ▸ hb)) hk
    exact ⟨_, haddr, hpass he hA (hlt.2 hk) hacc hrun⟩
  · obtain ⟨t, b, htraps⟩ := hc.traps h.program hconf h0 hs hip he.indexes harray.length
      (fun h => hk (hlt.1 h))
    exact htraps.refuses hroutine

end

/-! ### Accesses in structured code -/

section

variable {M : Setup} {u : CodeUnit} {g : Function} {s : State} {fuel : Nat} {A I yes : String}
  {xa xi x src : Expr} {a : Nat}

lemma reaches_past_seq (hp : Placed M.program a (itemsOf (.seq ss))) (hlo : s.frame.fn.start ≤ a)
    (hhi : a + extent (itemsOf (.seq ss)) ≤ s.frame.fn.stop) :
    Reaches M (s.stand (a + extent (itemsOfAll ss)) ρ S t)
      (s.stand (a + extent (itemsOf (.seq ss))) ρ S t) := by
  have hext : extent (itemsOf (.seq ss)) = extent (itemsOfAll ss) + 1 := extent_append _ _
  rw [hext] at hhi ⊢
  exact ⟨1, .head trivial (step_next (by omega) (by omega) hp.append.2.1 exec_seq) (.refl _)⟩

lemma reaches_past_eseq (hp : Placed M.program a (itemsOfExpr (.eseq st x)))
    (hlo : s.frame.fn.start ≤ a) (hhi : a + extent (itemsOfExpr (.eseq st x)) ≤ s.frame.fn.stop) :
    Reaches M (s.stand (a + extent (itemsOf st) + extent (itemsOfExpr x)) ρ S t)
      (s.stand (a + extent (itemsOfExpr (.eseq st x))) ρ S t) := by
  have hext : extent (itemsOfExpr (.eseq st x)) =
    extent (itemsOf st) + extent (itemsOfExpr x) + 1 := by
    rw [itemsOfExpr, extent_append, extent_append]
    rfl
  obtain ⟨-, hnode⟩ := hp.append
  rw [extent_append, ← add_assoc] at hnode
  rw [hext, ← add_assoc, ← add_assoc] at hhi ⊢
  exact ⟨1, .head trivial (step_next (by omega) (by omega) hnode.1 exec_eseq) (.refl _)⟩

section

variable {check : Stmt} {no : String} {ρ : Env} {S : Operands} {t : List Called} {ref k w : Int32}
  (hcheck : check = checkCode (.temp A) (.temp I) xa xi yes no)
  (hlo : s.frame.fn.start ≤ a)

include hcheck hlo

lemma reaches_past_check (hp : Placed M.program a (itemsOf check))
    (hhi : a + extent (itemsOf check) ≤ s.frame.fn.stop) :
    Reaches M
      (s.stand (a + extent (itemsOfAll ([.move (.temp A) xa] ++ [.move (.temp I) xi])) + 7) ρ S t)
      (s.stand (a + extent (itemsOf check)) ρ S t) := by
  subst hcheck
  have hall : extent (itemsOfAll ([.move (.temp A) xa] ++ [.move (.temp I) xi] ++
      compared A I yes no)) =
      extent (itemsOfAll ([.move (.temp A) xa] ++ [.move (.temp I) xi])) + 7 := by
    rw [itemsOfAll_append, extent_append, extent_compared]
  rw [add_assoc, ← hall]
  exact reaches_past_seq hp hlo hhi

variable (hA : ρ.regs.get? A = some ref) (hI : ρ.regs.get? I = some k)
  (hw : ρ.world.heap.load (ref + 4 * k) = .ok w)

include hA hI hw

lemma reaches_past_read (hx : x = .eseq check (.mem (elementAddr (.temp A) (.temp I))))
    (hp : Placed M.program a (itemsOfExpr x)) (hhi : a + extent (itemsOfExpr x) ≤ s.frame.fn.stop) :
    Reaches M
      (s.stand (a + extent (itemsOfAll ([.move (.temp A) xa] ++ [.move (.temp I) xi])) + 7) ρ S t)
      (s.stand (a + extent (itemsOfExpr x)) ρ (S.push (.mem (ref + 4 * k) w)) t) := by
  have hlen : extent (itemsOfExpr x) = extent (itemsOf check) + 7 := by
    rw [hx, itemsOfExpr, extent_append, extent_append]
    rfl
  subst hx
  obtain ⟨hstmt, helem⟩ := hp.append.1.append
  exact (reaches_past_check hcheck hlo hstmt (by omega)).trans <|
    (reaches_element (by omega) (by omega) helem hA hI hw).trans (reaches_past_eseq hp hlo hhi)

lemma reaches_past_target (hx : x = .mem (.eseq check (elementAddr (.temp A) (.temp I))))
    (hp : Placed M.program a (itemsOfExpr x)) (hhi : a + extent (itemsOfExpr x) ≤ s.frame.fn.stop) :
    Reaches M
      (s.stand (a + extent (itemsOfAll ([.move (.temp A) xa] ++ [.move (.temp I) xi])) + 7) ρ S t)
      (s.stand (a + extent (itemsOfExpr x)) ρ (S.push (.mem (ref + 4 * k) w)) t) := by
  have hlen : extent (itemsOfExpr (.eseq check (elementAddr (.temp A) (.temp I)))) =
      extent (itemsOf check) + 6 := by
    rw [itemsOfExpr, extent_append, extent_append]
    rfl
  have hall : extent (itemsOfExpr x) =
      extent (itemsOfExpr (.eseq check (elementAddr (.temp A) (.temp I)))) + 1 := by
    rw [hx]
    exact extent_append _ _
  rw [hall] at hhi ⊢
  subst hx
  obtain ⟨haddr, hmem⟩ := hp.append
  obtain ⟨hstmt, hsum⟩ := haddr.append.1.append
  have hload := exec_mem (p := M.program) (s := s) (S := S) (t := t)
    (a := a + extent (itemsOfExpr (.eseq check (elementAddr (.temp A) (.temp I)))))
    (x := .eseq check (elementAddr (.temp A) (.temp I)))
    (rfl : Eval.take .fills (.value (ref + 4 * k)) ρ = .ok (ref + 4 * k) ρ)
  rw [hw] at hload
  exact (reaches_past_check hcheck hlo hstmt (by omega)).trans <|
    (reaches_address (by omega) (by omega) hsum hA hI).trans <|
    (reaches_past_eseq haddr hlo (by omega)).trans
      ⟨1, .head trivial (step_next (by omega) (by omega) hmem.1 hload) (.refl _)⟩

end

section

variable {check : Stmt} (h : Running M u g s)
  (hconf : ∀ f ∈ u.functions, f.Confined (Callable u))
  (hcheck : check = checkCode (.temp A) (.temp I) xa xi yes (trapOf g.name))
  {esc scope : List String}
  (hc : CheckAt M (Callable u) s.frame.fn A I yes [.move (.temp A) xa] [.move (.temp I) xi] a esc
    scope) (hip : s.frame.ip = a) (hroutine : M.program.labels["_outOfBounds"]? = none)

include h hconf hcheck hc hip hroutine

lemma Running.exact_read (hx : x = .eseq check (.mem (elementAddr (.temp A) (.temp I))))
    (hocc : Occurs (.stmt g.body) s.frame.fn.start (.expr x) a) :
    Exact M s (s.context u M fuel) A I [.move (.temp A) xa] [.move (.temp I) xi] a
      (Yields M s (a + extent (itemsOfExpr x))) := by
  obtain ⟨hplaced, hlo, hend⟩ := hocc.placed h.holds.placed
  change _ ≤ s.frame.fn.start + extent (itemsOf g.body) at hend
  rw [← h.holds.stop] at hend
  refine h.exact hconf hroutine hc hip fun {ref n k ρ t} he hA _ hacc hrun => ?_
  obtain ⟨-, -, -, -, hI, -⟩ := he
  have hw := Heap.load_of_accessible hacc
  exact ⟨_, t, hw, hrun.trans (reaches_past_read hcheck hlo hA hI hw hx hplaced hend)⟩

lemma Running.exact_store (hst : st = .move target src)
    (hx : target = .mem (.eseq check (elementAddr (.temp A) (.temp I))))
    (hocc : Occurs (.stmt g.body) s.frame.fn.start (.stmt st) a) :
    Exact M s (s.context u M fuel) A I [.move (.temp A) xa] [.move (.temp I) xi] a
      (Stores M s (s.context u M fuel) [] src (a + extent (itemsOfExpr target))
        (a + extent (itemsOf st))) := by
  obtain ⟨hplaced, hlo, hend⟩ := hocc.placed h.holds.placed
  change a + extent (itemsOf st) ≤ s.frame.fn.start + extent (itemsOf g.body) at hend
  rw [← h.holds.stop] at hend
  have hne : Node.stmt st ≠ .stmt g.body := by
    obtain ⟨ss, esc, ts, hbody, -⟩ := hconf g h.member
    rw [hst, hbody]
    simp
  obtain ⟨s0, h0, -, hs⟩ := h.start
  have hbefore := before_of_reaches h.program hconf h0 hs h.member h.holds hocc hne hip
  subst hst
  have htarget : Placed M.program a (itemsOfExpr target) := hplaced.append.1.append.1
  have hall : extent (itemsOfExpr target) ≤ extent (itemsOf (.move target src)) := by
    rw [itemsOf, extent_append, extent_append]
    omega
  refine h.exact hconf hroutine hc hip fun {ref n k ρ t} he hA hlt hacc hrun => ?_
  obtain ⟨ρ0, ha, -, hi, hI, harray⟩ := he
  refine ⟨⟨_, t, hrun.trans (reaches_past_target hcheck hlo hA hI (Heap.load_of_accessible hacc) hx
    htarget (by omega))⟩, fun {ρ1 ρ2 v} hrest hv => ?_⟩
  obtain rfl : ρ = ρ1 := by
    rw [eval_seq, resume_nil] at hrest
    cases hrest
    rfl
  have haddr : (Expr.eseq check (elementAddr (.temp A) (.temp I))).eval (s.context u M fuel) s.env =
      .ok (.value (ref + 4 * k)) ρ := by
    rw [Expr.eval, hcheck, bind_ok (eval_checkCode hA hI
      (eval_of_eval_single rfl ha) (eval_of_eval_single rfl hi)
      harray.length hlt)]
    exact eval_elementAddr hA hI
  obtain ⟨heap, hheap, heval⟩ := storeAt_of_accessible rfl (grows_call u _ _ _ _ _) hacc hv
  subst hx
  obtain ⟨t, hdone⟩ := hbefore.passes h.program hconf ((eval_store haddr rfl).trans heval)
  exact ⟨heap, t, Heap.replaced_of_store hheap, hdone⟩

end

end

/-! ### Accesses in lowered code -/

/-- The run gets to the address `b`, and where the expression `x` then stands, it puts the word at
an address onto the stack. -/
def Offers (M : Setup) (s : State) (x : Expr) (b : Nat) (a : Int32) (ρ : Env) : Prop :=
  ∃ w t, ρ.world.heap.load a = .ok w ∧ Reaches M s (s.stand b ρ s.operands t) ∧
    ∀ c S t, s.frame.fn.start ≤ c → c + extent (itemsOfExpr x) ≤ s.frame.fn.stop →
      Placed M.program c (itemsOfExpr x) →
      Reaches M (s.stand c ρ S t)
        (s.stand (c + extent (itemsOfExpr x)) ρ (S.push (.mem a w)) t)

section

variable {M : Setup} {l : Flat.CodeUnit} {g : Flat.Function} {s : State} {fuel : Nat}
  {taken : Flat.Taken} {f : Function} {A I yes : String}
  {before code after ca ci : List Flat.Stmt}

lemma extent_lowered_check :
    extent (itemsOfAll ((ca ++ ci ++ Flat.comparedAt A I yes no).map Flat.Stmt.lift)) =
      extent (itemsOfAll (ca.map Flat.Stmt.lift ++ ci.map Flat.Stmt.lift)) + 7 := by
  rw [map_append, map_append, itemsOfAll_append, extent_append]
  rfl

/-- The address of an element is kept while the code of the right side runs: where there is such
code, in a register of its own. -/
lemma eval_kept_address (hsrc : Flat.LowersExpr taken ok lab src k1 pre y k2)
    (hj : Flat.Joins taken [Flat.elementAt A I] k2 pre moves zs k') (hA : ρ.regs.get? A = some ref)
    (hI : ρ.regs.get? I = some k)
    (he : (Stmt.seq ((moves ++ pre).map Flat.Stmt.lift)).eval cx ρ = .ok () ρ1) :
    ∃ x o, zs = [x] ∧ x.lift.eval cx ρ1 = .ok o ρ1 ∧ o.word? = some (ref + 4 * k) := by
  cases hj with
  | plain =>
    rw [List.append_nil, map_nil, eval_seq, resume_nil] at he
    cases he
    exact ⟨_, _, rfl, eval_elementAddr hA hI, rfl⟩
  | after _ hsaves =>
    cases hsaves with
    | keep hfixed _ => cases hfixed
    | @save _ _ _ reg _ _ _ _ _ hfresh hrest =>
      cases hrest
      have haddr : (Flat.elementAt A I).lift.word cx ρ = .ok (ref + 4 * k) ρ := by
        rw [Flat.lift_elementAt, Expr.word, bind_ok (eval_elementAddr hA hI)]
        rfl
      rw [cons_append, nil_append, map_cons, Flat.Stmt.lift,
        eval_seq_cons rfl (eval_moveTemp haddr)] at he
      have hkeep : reg ∉ Flat.movedBy pre := by
        intro hr
        rcases (Flat.shape_expr hsrc).1.moves.2 reg hr with ⟨-, htaken⟩ | ⟨hint, n, heq, -, -, hle⟩
        · exact hfresh.free htaken
        · have hlt := hfresh.lt
          rw [hfresh.eq, numbered_inj] at heq
          omega
      have hholds : Eval.Along (Holds reg) ((Stmt.seq (pre.map Flat.Stmt.lift)).eval cx) :=
        holds_stmt (fun i => hfresh.eq ▸ ne_retReg_numbered _ _ i) hkeep
      replace hholds := hholds { ρ with regs := ρ.regs.set reg (ref + 4 * k) } _
        (Registers.get?_set_self _ _ _)
      rw [he] at hholds
      exact ⟨_, _, rfl, eval_temp hholds, rfl⟩

section

variable (h : Running M l.lift g.lift s)
  (hconf : ∀ f ∈ l.lift.functions, f.Confined (Callable l.lift))
  (hfg : Flat.Lowered taken (Callable l.lift) f g)

include h hconf hfg

lemma Running.passes_stretch (hbody : g.body = before ++ (code ++ after))
    (hstart : s.frame.fn.start ≤ lo) (hlo : lo ≤ a)
    (ha : s.frame.fn.start + extent (itemsOfAll (before.map Flat.Stmt.lift)) = a)
    (hl : Level M.program (s.cleared M.program lo) (s.cleared M.program lo).operands a s.operands)
    (he : (Stmt.seq (code.map Flat.Stmt.lift)).eval (s.context l.lift M fuel) ρ = .ok () ρ') :
    ∃ t', Reaches M (s.stand a ρ s.operands t)
      (s.stand (a + extent (itemsOfAll (code.map Flat.Stmt.lift))) ρ' s.operands t') := by
  obtain ⟨hplaced, hstop⟩ := placed_stretch h.holds hbody
  rw [ha] at hplaced hstop
  have sc := scene_of_unit (a := lo) h.program hconf s fuel hstart
  have hwhole : Placed M.program s.frame.fn.start (itemsOfAll (g.body.map Flat.Stmt.lift)) :=
    h.holds.placed.append.1
  have hall := Stmt.confinedAll_iff.1 hfg.confinedAll
  have hcode : Stmt.ConfinedAll (Callable l.lift) [] (labelsIn (g.body.map Flat.Stmt.lift))
      (code.map Flat.Stmt.lift) := by
    refine Stmt.confinedAll_iff.2 fun st hst => hall st ?_
    rw [hbody, map_append, map_append]
    exact mem_append_right _ (mem_append_left _ hst)
  obtain ⟨t', hrun⟩ := reaches_list (t := t) sc hcode
    (fun l hl => isSome_of_mem_labelsIn hwhole hl) (by simp) ⟨hplaced, hlo, hstop⟩ hl he
  exact ⟨t', hrun⟩

variable {no : String} {lo : Nat} {scope : List String}
  (hlo : s.frame.fn.start + extent (itemsOfAll (before.map Flat.Stmt.lift)) = lo)
  (hc : CheckAt M (Callable l.lift) s.frame.fn A I yes (ca.map Flat.Stmt.lift)
    (ci.map Flat.Stmt.lift) lo [] scope) (hip : s.frame.ip = lo)
  (hroutine : M.program.labels["_outOfBounds"]? = none)

include hc hip hroutine

omit hfg in
lemma Running.exact_read_lowered :
    Exact M s (s.context l.lift M fuel) A I (ca.map Flat.Stmt.lift) (ci.map Flat.Stmt.lift) lo
      (Offers M s (Flat.Expr.mem (Flat.elementAt A I)).lift (lo + extent (itemsOfAll
        ((ca ++ ci ++ Flat.comparedAt A I yes no).map Flat.Stmt.lift)))) := by
  refine h.exact hconf hroutine hc hip fun {ref n k ρ t} he hA _ hacc hrun => ?_
  obtain ⟨-, -, -, -, hI, -⟩ := he
  have hw := Heap.load_of_accessible hacc
  rw [extent_lowered_check]
  exact ⟨_, t, hw, hrun, fun c S t hc hc' hp => reaches_element hc hc' hp hA hI hw⟩

include hlo

lemma Running.exact_store_lowered (hcheck : check = ca ++ ci ++ Flat.comparedAt A I yes no)
    (hbody : g.body = before ++ (check ++ (rest ++ [.moveMem x y]) ++ after))
    (hkept : ∀ {ρ ρ1 : Env} {ref k : Int32}, ρ.regs.get? A = some ref → ρ.regs.get? I = some k →
      (Stmt.seq (rest.map Flat.Stmt.lift)).eval (s.context l.lift M fuel) ρ = .ok () ρ1 →
      ∃ o, x.lift.eval (s.context l.lift M fuel) ρ1 = .ok o ρ1 ∧ o.word? = some (ref + 4 * k)) :
    Exact M s (s.context l.lift M fuel) A I (ca.map Flat.Stmt.lift) (ci.map Flat.Stmt.lift) lo
      (Stores M s (s.context l.lift M fuel) (rest.map Flat.Stmt.lift) y.lift
        (lo + extent (itemsOfAll (check.map Flat.Stmt.lift)))
        (lo + extent (itemsOfAll ((check ++ (rest ++ [Flat.Stmt.moveMem x y])).map
          Flat.Stmt.lift)))) := by
  have hlen : extent (itemsOfAll (check.map Flat.Stmt.lift)) =
      extent (itemsOfAll (ca.map Flat.Stmt.lift ++ ci.map Flat.Stmt.lift)) + 7 := by
    rw [hcheck]
    exact extent_lowered_check
  refine h.exact hconf hroutine hc hip fun {ref n k ρ t} he hA _ hacc hrun => ?_
  obtain ⟨-, -, -, -, hI, -⟩ := he
  obtain ⟨s0, h0, -, hs⟩ := h.start
  have hlevel := (hc.level h.program hconf h0 hs hip).stmts hc.placed
  rw [itemsOfAll_append _ (compared ..), extent_append, extent_compared, ← hlen] at hlevel
  rw [add_assoc, ← hlen] at hrun
  refine ⟨⟨_, t, hrun⟩, fun {ρ1 ρ2 v} hrest hv => ?_⟩
  -- the code of the right side, from where the check has been passed
  have hbody1 : g.body = (before ++ check) ++ (rest ++ ([.moveMem x y] ++ after)) := by
    rw [hbody]
    simp
  have hat1 : s.frame.fn.start + extent (itemsOfAll ((before ++ check).map Flat.Stmt.lift)) =
      lo + extent (itemsOfAll (check.map Flat.Stmt.lift)) := by
    rw [map_append, itemsOfAll_append, extent_append]
    omega
  obtain ⟨t1, hrun1⟩ := h.passes_stretch (t := t) hconf hfg hbody1 hc.start_le
    (Nat.le_add_right _ _)
    hat1 hlevel hrest
  -- the store
  have hbody2 : g.body = (before ++ check ++ rest) ++ ([.moveMem x y] ++ after) := by
    rw [hbody]
    simp
  have hat2 : s.frame.fn.start + extent (itemsOfAll
    ((before ++ check ++ rest).map Flat.Stmt.lift)) =
      lo + extent (itemsOfAll (check.map Flat.Stmt.lift)) +
        extent (itemsOfAll (rest.map Flat.Stmt.lift)) := by
    rw [map_append, itemsOfAll_append, extent_append]
    omega
  have hplaced1 := (placed_stretch h.holds hbody1).1
  rw [hat1] at hplaced1
  obtain ⟨o, ho, hword⟩ := hkept hA hI hrest
  have hgrows : Eval.Along Grows
      ((Stmt.seq (rest.map Flat.Stmt.lift)).eval (s.context l.lift M fuel)) :=
    grows_stmt (grows_call l.lift _ _ _ _ _) _
  replace hgrows := hgrows ρ
  rw [hrest] at hgrows
  obtain ⟨heap, hheap, heval⟩ := storeAt_of_accessible rfl
    (grows_call l.lift _ _ _ _ _) (hacc.grows hgrows) hv
  have hstore : (Stmt.seq ([Flat.Stmt.moveMem x y].map Flat.Stmt.lift)).eval
      (s.context l.lift M fuel) ρ1 = .ok () { ρ2 with world := { ρ2.world with heap } } := by
    rw [eval_seq]
    exact resume_ok ((eval_store ho hword).trans heval)
  obtain ⟨t2, hrun2⟩ := h.passes_stretch (t := t1) hconf hfg hbody2 hc.start_le
    (by omega) hat2 (hlevel.stmts hplaced1) hstore
  refine ⟨heap, t2, Heap.replaced_of_store hheap, ?_⟩
  simp only [map_append, itemsOfAll_append, extent_append, ← add_assoc]
  exact (hrun.trans hrun1).trans hrun2

end

end

/-! ### Accesses of a resolved program -/

/-- The reads of elements in a structured function are exact, from the states of a run on. -/
def ExactReads (M : Setup) (u : CodeUnit) (g : Function) (s : State) : Prop :=
  ∀ {scopes span type array idx c x c' a},
    (Structured.Compile.expr scopes (trapOf g.name) (.index span type array idx)).value c =
      .ok (x, c') →
    Occurs (.stmt g.body) s.frame.fn.start (.expr x) a → s.frame.ip = a →
    ∃ A I yes xa xi c1 c2, ValueOf scopes (trapOf g.name) array c xa c1 ∧
      ValueOf scopes (trapOf g.name) idx c1 xi c2 ∧
      x = .eseq (checkCode (.temp A) (.temp I) xa xi yes (trapOf g.name))
        (.mem (elementAddr (.temp A) (.temp I))) ∧
      ∀ fuel, Exact M s (s.context u M fuel) A I [.move (.temp A) xa] [.move (.temp I) xi] a
        (Yields M s (a + extent (itemsOfExpr x)))

def ExactStores (M : Setup) (u : CodeUnit) (g : Function) (s : State) : Prop :=
  ∀ {scopes span ispan type array idx e c st c' a},
    Structured.Compile.stmt scopes (trapOf g.name)
      (.assign span (.index ispan type array idx) e) c =
      .ok (some st, c') →
    Occurs (.stmt g.body) s.frame.fn.start (.stmt st) a → s.frame.ip = a →
    ∃ A I yes xa xi c1 c2 c3 target src, ValueOf scopes (trapOf g.name) array c xa c1 ∧
      ValueOf scopes (trapOf g.name) idx c1 xi c2 ∧ ValueOf scopes (trapOf g.name) e c3 src c' ∧
      target = .mem (.eseq (checkCode (.temp A) (.temp I) xa xi yes (trapOf g.name))
        (elementAddr (.temp A) (.temp I))) ∧ st = .move target src ∧
      ∀ fuel, Exact M s (s.context u M fuel) A I [.move (.temp A) xa] [.move (.temp I) xi] a
        (Stores M s (s.context u M fuel) [] src (a + extent (itemsOfExpr target))
          (a + extent (itemsOf st)))

/-- The code that an expression is lowered to stands in a flat function behind `before`, and `y` is
the value it leaves. -/
def ExprBehind (taken : Flat.Taken) (ok : String → Prop) (f : Function)
    (g : Flat.Function) (x : Expr)
    (before code : List Flat.Stmt) (y : Flat.Expr) : Prop :=
  ∃ after k k', g.body = before ++ (code ++ after) ∧
    Flat.LowersExpr taken ok (· ∈ marks (itemsOf f.body)) x k code y k'

/-- The reads of elements in a structured function are somewhere in its lowered form, and wherever
they are, they are exact. -/
def ExactReadsLowered (M : Setup) (taken : Flat.Taken) (ok : String → Prop) (v : CodeUnit)
    (f : Function) (g : Flat.Function) (s : State) : Prop :=
  ∀ {scopes span type array idx c x c' a},
    (Structured.Compile.expr scopes (trapOf f.name) (.index span type array idx)).value c =
      .ok (x, c') →
    Occurs (.stmt f.body) 0 (.expr x) a →
    (∃ before code y, ExprBehind taken ok f g x before code y) ∧
    ∀ {before code y lo}, ExprBehind taken ok f g x before code y →
      s.frame.fn.start + extent (itemsOfAll (before.map Flat.Stmt.lift)) = lo → s.frame.ip = lo →
      ∃ A I yes xa xi c1 c2 ca ci, ValueOf scopes (trapOf f.name) array c xa c1 ∧
        ValueOf scopes (trapOf f.name) idx c1 xi c2 ∧ LowersParts taken ok f A I xa xi ca ci ∧
        code = ca ++ ci ++ Flat.comparedAt A I yes (trapOf f.name) ∧
        y = .mem (Flat.elementAt A I) ∧
        ∀ fuel, Exact M s (s.context v M fuel) A I (ca.map Flat.Stmt.lift)
          (ci.map Flat.Stmt.lift) lo
          (Offers M s y.lift (lo + extent (itemsOfAll (code.map Flat.Stmt.lift))))

def ExactStoresLowered (M : Setup) (taken : Flat.Taken) (ok : String → Prop) (v : CodeUnit)
    (f : Function) (g : Flat.Function) (s : State) : Prop :=
  ∀ {scopes span ispan type array idx e c st c' a},
    Structured.Compile.stmt scopes (trapOf f.name)
      (.assign span (.index ispan type array idx) e) c =
      .ok (some st, c') →
    Occurs (.stmt f.body) 0 (.stmt st) a →
    (∃ before code, StmtBehind taken ok f g st before code) ∧
    ∀ {before code lo}, StmtBehind taken ok f g st before code →
      s.frame.fn.start + extent (itemsOfAll (before.map Flat.Stmt.lift)) = lo → s.frame.ip = lo →
      ∃ A I yes xa xi c1 c2 c3 src ca ci check saves pre z y k k',
        ValueOf scopes (trapOf f.name) array c xa c1 ∧
        ValueOf scopes (trapOf f.name) idx c1 xi c2 ∧ ValueOf scopes (trapOf f.name) e c3 src c' ∧
        LowersParts taken ok f A I xa xi ca ci ∧
        Flat.LowersExpr taken ok (· ∈ marks (itemsOf f.body)) src k pre y k' ∧
        check = ca ++ ci ++ Flat.comparedAt A I yes (trapOf f.name) ∧
        code = check ++ (saves ++ pre ++ [.moveMem z y]) ∧
        ∀ fuel, Exact M s (s.context v M fuel) A I (ca.map Flat.Stmt.lift)
          (ci.map Flat.Stmt.lift) lo
          (Stores M s (s.context v M fuel) ((saves ++ pre).map Flat.Stmt.lift) y.lift
            (lo + extent (itemsOfAll (check.map Flat.Stmt.lift)))
            (lo + extent (itemsOfAll (code.map Flat.Stmt.lift))))

section

variable {p q : Tree.Program} {u : CodeUnit} {M : Setup} {g : Function} {s : State}
  (hq : p.resolve = .ok q) (hu : CodeUnit.ofTree q = .ok u) (hout : u.lookup "_outOfBounds" = none)

include hq hu hout

lemma Running.exactReads (h : Running M u g s) : ExactReads M u g s := by
  intro scopes span type array idx c x c' a hx hocc hip
  have hconf := Structured.confined_of_ofTree hq hu
  have hroutine := labels_routine hu h.program (by decide) (by decide) hout
  cases (Structured.Compile.byRules_expr scopes (trapOf g.name) _).value hx with
  | index ha hi =>
    have hcheck := hocc.trans (.part [] [.expr _] rfl (.self _ _))
    obtain ⟨esc, scope, hc⟩ := h.inside.checkAt hq hu ⟨⟨_, ha, hi⟩, rfl, rfl, rfl⟩ hcheck
    exact ⟨_, _, _, _, _, _, _, ha, hi, rfl, fun fuel =>
      h.exact_read hconf rfl hc hip hroutine rfl hocc⟩
  | flag hl => exact hl.elim

lemma Running.exactStores (h : Running M u g s) : ExactStores M u g s := by
  intro scopes span ispan type array idx e c st c' a hst hocc hip
  have hconf := Structured.confined_of_ofTree hq hu
  have hroutine := labels_routine hu h.program (by decide) (by decide) hout
  cases Structured.Compile.stmtOf_of_stmt (trapOf g.name) _ hst with
  | @store _ _ _ _ _ _ _ _ xa ca xi ci x _ ha hi he =>
    have hcheck := hocc.trans (.part [] [.expr x] rfl (.part [] [] rfl (.part [] [.expr _] rfl
      (.self _ _))))
    obtain ⟨esc, scope, hc⟩ := h.inside.checkAt hq hu ⟨⟨_, ha, hi⟩, rfl, rfl, rfl⟩ hcheck
    exact ⟨_, _, _, _, _, _, _, _, _, _, ha, hi, he, rfl, rfl, fun fuel =>
      h.exact_store hconf rfl hc hip hroutine rfl rfl hocc⟩

variable {l : Flat.CodeUnit} {f : Function} {g : Flat.Function}
  (hl : Flat.CodeUnit.ofStructured u = .ok l) (hf : f ∈ u.functions)
  (hfg : Flat.Lowered (Std.TreeSet.ofList u.temps) (Callable u) f g)

include hl hf hfg

lemma Running.exactReadsLowered (h : Running M l.lift g.lift s) :
    ExactReadsLowered M (Std.TreeSet.ofList u.temps) (Callable u) l.lift f g s := by
  intro scopes span type array idx c x c' a hx hocc
  have hconf' := Flat.confined_lift (Structured.confined_of_ofTree hq hu) hl
  have hroutine := labels_routine_lowered hq hu hl h.program (by decide) (by decide) hout
  cases (Structured.Compile.byRules_expr scopes (trapOf f.name) _).value hx with
  | index ha hi =>
    refine ⟨?_, ?_⟩
    · obtain ⟨k, mid, y, k', ⟨before, after, hbody⟩, hmid⟩ :=
        contains_of_lowered hfg hocc (by simp) trivial
      exact ⟨before, mid, y, after, k, k', by rw [← hbody, append_assoc], hmid⟩
    · rintro before code y lo ⟨after, k, k', hbody, hcode⟩ rfl hip
      cases hcode with
      | eseq hcheck hvalue =>
        obtain ⟨rfl, rfl, rfl⟩ := Flat.of_lowersExpr_lift (x := .mem (Flat.elementAt _ _)) hvalue
        rw [List.append_nil] at hbody ⊢
        obtain ⟨ca, ci, hparts, rfl, hc⟩ := h.inside.checkAt_lowered hq hu hl hf hfg
          ⟨⟨_, ha, hi⟩, rfl, rfl, rfl⟩ ⟨after, k, k', hbody, hcheck⟩
        exact ⟨_, _, _, _, _, _, _, ca, ci, ha, hi, hparts, rfl, rfl, fun fuel =>
          h.exact_read_lowered hconf' hc hip hroutine⟩
  | flag hl => exact hl.elim

lemma Running.exactStoresLowered (h : Running M l.lift g.lift s) :
    ExactStoresLowered M (Std.TreeSet.ofList u.temps) (Callable u) l.lift f g s := by
  intro scopes span ispan type array idx e c st c' a hst hocc
  have hconf := Structured.confined_of_ofTree hq hu
  have hconf' := Flat.confined_lift hconf hl
  have hroutine := labels_routine_lowered hq hu hl h.program (by decide) (by decide) hout
  have hne : Node.stmt st ≠ .stmt f.body := by
    obtain ⟨ss, esc, ts, hbody, -⟩ := hconf f hf
    rw [hbody]
    cases Structured.Compile.stmtOf_of_stmt (trapOf f.name) _ hst
    simp
  cases Structured.Compile.stmtOf_of_stmt (trapOf f.name) _ hst with
  | @store _ _ _ _ _ _ _ _ xa c1 xi c2 x _ ha hi he =>
    refine ⟨exists_stmtBehind hfg hocc hne, ?_⟩
    rintro before code lo ⟨after, k, k', hbody, hcode⟩ rfl hip
    cases hcode with
    | moveMem hall =>
      obtain ⟨pre, z, k1, pre', y, k2, saves, zs, htarget, hsrc, hj, rfl, heq⟩ := hall.pair
      cases htarget with
      | eseq hcheck hvalue =>
        obtain ⟨rfl, rfl, rfl⟩ := Flat.of_lowersExpr_lift (x := Flat.elementAt _ _) hvalue
        obtain ⟨z, rfl⟩ := length_eq_one_iff.1 hj.length_eq
        obtain ⟨rfl, rfl⟩ : _ = z ∧ _ = y := by simpa using heq
        have hcode : ∀ check last : List Flat.Stmt, check ++ [] ++ (saves ++ pre') ++ last =
            check ++ (saves ++ pre' ++ last) := by simp
        rw [hcode] at hbody ⊢
        obtain ⟨ca, ci, hparts, rfl, hc⟩ := h.inside.checkAt_lowered hq hu hl hf hfg
          ⟨⟨_, ha, hi⟩, rfl, rfl, rfl⟩
          ⟨_, k, _, hbody.trans (by rw [append_assoc _ _ after]), hcheck⟩
        refine ⟨_, _, _, _, _, _, _, _, _, ca, ci, _, saves, pre', _, _, _, _, ha, hi, he,
          hparts, hsrc, rfl, rfl, fun fuel => ?_⟩
        refine h.exact_store_lowered hconf' (callable_eq hq hu hl ▸ hfg) rfl hc hip hroutine
          rfl hbody fun {ρ ρ1 ref k} hA hI hrest => ?_
        obtain ⟨z', o, hz, ho, hword⟩ := eval_kept_address hsrc hj hA hI hrest
        cases hz
        exact ⟨o, ho, hword⟩

end

/-- The bounds check is exact, in structured and in lowered code. Where the array of an access has
been evaluated to a reference whose elements exist, and then the index to any number, the access
goes on if and only if the index is one of an element: a read gives the word of that element, an
assignment replaces that word and nothing else. Otherwise the run fails with the name of the
function, the world is as it was when the index had been computed, and the right side of an
assignment is not run. -/
theorem exact_accesses {p q : Tree.Program} {u : CodeUnit} (hq : p.resolve = .ok q)
    (hu : CodeUnit.ofTree q = .ok u) (hout : u.lookup "_outOfBounds" = none) :
    (∀ {M g s}, Running M u g s → ExactReads M u g s ∧ ExactStores M u g s) ∧
    ∀ {l}, Flat.CodeUnit.ofStructured u = .ok l → ∀ g ∈ l.functions, ∃ f ∈ u.functions,
      Flat.Lowered (Std.TreeSet.ofList u.temps) (Callable u) f g ∧
      ∀ {M s}, Running M l.lift g.lift s →
        ExactReadsLowered M (Std.TreeSet.ofList u.temps) (Callable u) l.lift f g s ∧
        ExactStoresLowered M (Std.TreeSet.ofList u.temps) (Callable u) l.lift f g s := by
  refine ⟨fun h => ⟨h.exactReads hq hu hout, h.exactStores hq hu hout⟩, fun hl g hg => ?_⟩
  have hlow := Flat.lowered_of_ofStructured (confined_of_ofTree hq hu) hl
  obtain ⟨f, hf, hfg⟩ := Flat.exists_of_forall₂ hlow hg
  exact ⟨f, hf, hfg, fun h => ⟨h.exactReadsLowered hq hu hout hl hf hfg,
    h.exactStoresLowered hq hu hout hl hf hfg⟩⟩

/-- A program whose `main` gives back an element of an array. -/
def picking : Tree.Program where
  name := "picking"
  functions := [{
    name := "main"
    params := [{ name := "a", type := some (.array .int) }, { name := "i", type := some .int }]
    returns := [.int]
    body := some {
      stmts := [.ret {} [.index {} none (.ident { name := "a" }) (.ident { name := "i" })]] } }]

def pick : Expr :=
  .eseq (checkCode (.temp "aA.1") (.temp "aI.2") (.temp "a") (.temp "i") "bounds.ok.1"
    "main.bounds")
    (.mem (elementAddr (.temp "aA.1") (.temp "aI.2")))

def picked : CodeUnit where
  name := "picking"
  functions := [{
    name := "main"
    params := ["a", "i"]
    body := .seq [.move (.temp "a") (.temp "ARG1"), .move (.temp "i") (.temp "ARG2"),
      .seq [.ret [pick]], .ret [], .label "main.bounds",
      .exp (.call (.name "_outOfBounds") [])] }]

/-- A heap with an array of the elements 7 and 9. -/
def pair : Heap :=
  (Heap.empty 64).appendArray [7, 9]

/-- `main` is called with this array and an index. -/
def pickAt (k : Int32) : State where
  world := { (default : World) with heap := pair }
  operands := .empty
  frame := newFrame ⟨"main", 0, 34⟩ 0 [8, k] 0
  depth := 1

lemma running_picked (hm : ofUnit? (some picked) {} = .ok m)
    (hentry : m.setup.program.entry "main" = some ⟨"main", 0, 34⟩)
    (hs : Reaches m.setup (pickAt k) s) (hfn : s.frame.fn = ⟨"main", 0, 34⟩) :
    Running m.setup picked picked.functions[0] s := by
  have hp := program_of_ofUnit? hm
  have hmem : picked.functions[0] ∈ picked.functions := getElem_mem _
  have hh := holds_of_entry hm hmem hentry
  have hbounded : pair.limit < 2 ^ 31 := by decide
  exact ⟨hp, hmem, hfn ▸ hh, pickAt k, ⟨rfl, _, hmem, _, _, hh, rfl⟩, hbounded, hs⟩

lemma code_of_picking : (picking.resolve >>= CodeUnit.ofTree) = .ok picked := rfl

def pickIdent (id : Nat) (name : String) : Tree.Expr :=
  .ident { name, symbol := some { id, name, kind := .variable } }

lemma code_of_pick : (Structured.Compile.expr [] (trapOf picked.functions[0].name)
      (.index {} none (pickIdent 1 "a") (pickIdent 2 "i"))).value
        { bound := [(1, "a"), (2, "i")] } =
    .ok (pick, { bound := [(1, "a"), (2, "i")], temps := 2, labels := 1, traps := true }) := rfl

lemma occurs_pick : Occurs (.stmt picked.functions[0].body) 0 (.expr pick) 6 :=
  .part [.stmt (.move (.temp "a") (.temp "ARG1")), .stmt (.move (.temp "i") (.temp "ARG2"))] _ rfl
    (.part [] [] rfl (.part [] [] rfl (.self _ 6)))

lemma evaluates_pick {s : State} (ha : s.frame.regs.get? "a" = some 8)
    (hi : s.frame.regs.get? "i" = some k) (hheap : s.world.heap = pair) :
    Evaluates cx "aA.1" "aI.2" [.move (.temp "aA.1") (.temp "a")] [.move (.temp "aI.2") (.temp "i")]
      s.env 8 2 k { regs := (s.frame.regs.set "aA.1" 8).set "aI.2" k, world := s.world } := by
  have hi' : (s.frame.regs.set "aA.1" 8).get? "i" = some k := by
    rw [Registers.get?_set_of_ne _ _ (by decide), hi]
  have harray : pair.ArrayAt 8 2 := ⟨by decide, by decide, by decide⟩
  refine ⟨{ regs := s.frame.regs.set "aA.1" 8, world := s.world }, ?_,
    Registers.get?_set_self _ _ _, ?_, Registers.get?_set_self _ _ _, hheap ▸ harray⟩
  · rw [eval_seq]
    exact resume_ok (eval_moveTemp (word_temp ha))
  · rw [eval_seq]
    exact resume_ok (eval_moveTemp (word_temp hi'))

/-- The element of index 1 is read, and the one of index 2 is refused. -/
theorem exact_accesses_picking :
    ∃ q m, picking.resolve = .ok q ∧ CodeUnit.ofTree q = .ok picked ∧
      ofUnit? (some picked) {} = .ok m ∧
      (∃ s ρ t, Reaches m.setup (pickAt 1) s ∧
        Reaches m.setup s (s.stand 27 ρ (s.operands.push (.mem 12 9)) t)) ∧
      ∃ s ρ, Reaches m.setup (pickAt 2) s ∧ Refuses m.setup s 12 ρ := by
  obtain ⟨q, hq, hu⟩ := Except.bind_eq_ok code_of_picking
  have hrun : ((ofUnit? (some picked) {}).toOption.bind fun m =>
    (ahead m.setup 6 (pickAt 1)).bind fun s => (ahead m.setup 6 (pickAt 2)).map fun s' =>
      decide (m.setup.program.entry "main" = some ⟨"main", 0, 34⟩ ∧
        (s.frame.fn = ⟨"main", 0, 34⟩ ∧ s.frame.ip = 6 ∧ s.frame.regs.get? "a" = some 8 ∧
          s.frame.regs.get? "i" = some 1 ∧ s.world.heap = pair) ∧
        (s'.frame.fn = ⟨"main", 0, 34⟩ ∧ s'.frame.ip = 6 ∧ s'.frame.regs.get? "a" = some 8 ∧
          s'.frame.regs.get? "i" = some 2 ∧ s'.world.heap = pair))) = some true := by
    decide +kernel
  obtain ⟨m, hm, hrun⟩ := Except.bind_eq_some.1 hrun
  obtain ⟨s, hs, hrun⟩ := Option.bind_eq_some_iff.1 hrun
  obtain ⟨s', hs', hrun⟩ := Option.map_eq_some_iff.1 hrun
  obtain ⟨hentry, hstate, hstate'⟩ := of_decide_eq_true hrun
  have hout : picked.lookup "_outOfBounds" = none := by decide
  have hexact : ∀ {k : Int32} {s : State}, Reaches m.setup (pickAt k) s →
      s.frame.fn = ⟨"main", 0, 34⟩ ∧ s.frame.ip = 6 ∧ s.frame.regs.get? "a" = some 8 ∧
        s.frame.regs.get? "i" = some k ∧ s.world.heap = pair →
      ∃ ρ, ρ.world.heap = pair ∧
        (0 ≤ k.toInt ∧ k.toInt < 2 → ∃ a : Int32, a.toInt = 8 + 4 * k.toInt ∧
          Yields m.setup s 27 a ρ) ∧
        (¬(0 ≤ k.toInt ∧ k.toInt < 2) → Refuses m.setup s 12 ρ) := by
    rintro k s hreach ⟨hfn, hip, ha, hi, hheap⟩
    have hrunning := running_picked hm hentry hreach hfn
    have hocc : Occurs (.stmt picked.functions[0].body) s.frame.fn.start (.expr pick) 6 := by
      rw [hfn]
      exact occurs_pick
    obtain ⟨A, I, yes, xa, xi, -, -, -, -, hx, hexact⟩ :=
      ((exact_accesses hq hu hout).1 hrunning).1 code_of_pick hocc hip
    obtain ⟨rfl, rfl, rfl, rfl⟩ : A = "aA.1" ∧ I = "aI.2" ∧ xa = .temp "a" ∧ xi = .temp "i" := by
      unfold pick checkCode at hx
      cases hx
      exact ⟨rfl, rfl, rfl, rfl⟩
    exact ⟨_, hheap, hexact 0 _ _ _ _ (evaluates_pick ha hi hheap)⟩
  obtain ⟨ρ, hheap, hread, -⟩ := hexact (reaches_of_ahead hs) hstate
  obtain ⟨ρ', -, -, hrefused⟩ := hexact (reaches_of_ahead hs') hstate'
  obtain ⟨a, ha, w, t, hw, hreach⟩ := hread (by decide)
  obtain rfl : a = 12 := Int32.toInt_inj.1 ha
  have hnine : pair.load 12 = .ok 9 := by decide
  rw [hheap, hnine] at hw
  cases hw
  exact ⟨q, m, hq, hu, hm, ⟨s, ρ, t, reaches_of_ahead hs, hreach⟩, s', ρ',
    reaches_of_ahead hs', hrefused (by decide)⟩

end TreeMachine.Machine
