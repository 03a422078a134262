import TreeMachine.Proofs.Balance
import TreeMachine.Proofs.Calls
import TreeMachine.Proofs.Expected
import TreeMachine.Proofs.Passes

/-!
# The machine follows the evaluation

The machine runs confined code as the evaluation of structured code says. An expression
takes the run to the address after it, with the operand of the evaluation on top of the
stack; a statement takes it to the address after it, with the stack as it was. What happens
when the evaluation is abandoned is said by `leaving`.

The theorems carry along how high the stack is at every address (`Level`), and hand every
state that a run leaves to a property `Q` that the reader of the theorems chooses.
-/

open List

namespace TreeMachine.Machine

open Structured
open Linear

variable {os : List Operand} {ss : List Stmt}

/-! ### Where a run stands -/

/-- The operand stack in the frame entered in `s0` is as high as the code before an address
makes it, on top of the stack `G` that the frame has to leave alone. -/
structure Level (p : Program) (s0 : State) (G : Operands) (a : Nat) (S : Operands) : Prop where
  below : G.items <:+ S.items
  height : (S.height : Int) = G.height + (p.level a - p.level s0.frame.fn.start)

lemma Operands.height_le_of_suffix {S S' : Operands} (h : S.items <:+ S'.items) :
    S.height ≤ S'.height := by
  rw [S.height_eq, S'.height_eq]
  exact h.length_le

section

variable {p : Program} {s0 : State} {G S : Operands} {a lo : Nat} {is is' : List Item} {n : Node}

lemma Level.append (h : Level p s0 G a S) (hp : Placed p a is)
    (hg : gain (nodes is) = os.length) : Level p s0 G (a + extent is) (S.append os) where
  below := h.below.trans (suffix_append _ _)
  height := by
    have hh := h.height
    rw [hp.level, hg, Operands.height_append]
    omega

lemma Level.expr (h : Level p s0 G a S) (hp : Placed p a (itemsOfExpr x)) :
    Level p s0 G (a + extent (itemsOfExpr x)) (S.push o) :=
  show Level p s0 G _ (S.append [o]) from h.append hp (gain_itemsOfExpr x)

lemma Level.exprs (h : Level p s0 G a S) (hp : Placed p a (itemsOfExprs xs))
    (hlen : os.length = xs.length) : Level p s0 G (a + extent (itemsOfExprs xs)) (S.append os) :=
  h.append hp (by rw [gain_itemsOfExprs, hlen])

lemma Level.stmt (h : Level p s0 G a S) (hp : Placed p a (itemsOf st)) :
    Level p s0 G (a + extent (itemsOf st)) S :=
  show Level p s0 G _ (S.append []) from h.append hp (gain_itemsOf st)

lemma Level.stmts (h : Level p s0 G a S) (hp : Placed p a (itemsOfAll ss)) :
    Level p s0 G (a + extent (itemsOfAll ss)) S :=
  show Level p s0 G _ (S.append []) from h.append hp (gain_itemsOfAll ss)

lemma Level.le (h : Level p s0 G a S) : G.height ≤ S.height :=
  Operands.height_le_of_suffix h.below

/-- Code stands at an address, from `lo` on and inside the running function. -/
structure Site (p : Program) (s0 : State) (lo a : Nat) (is : List Item) : Prop where
  placed : Placed p a is
  lo_le : lo ≤ a
  le_stop : a + extent is ≤ s0.frame.fn.stop

lemma Site.append (h : Site p s0 lo a (is ++ is')) :
    Site p s0 lo a is ∧ Site p s0 lo (a + extent is) is' := by
  obtain ⟨h1, h2⟩ := h.placed.append
  have hlo := h.lo_le
  have hstop := h.le_stop
  rw [extent_append] at hstop
  exact ⟨⟨h1, hlo, by omega⟩, ⟨h2, by omega, by omega⟩⟩

lemma Site.nth (h : Site p s0 lo a (itemsOfAll ss)) (hi : ss[i]? = some st) :
    Site p s0 lo (a + extent (itemsOfAll (ss.take i))) (itemsOf st) ∧
      Placed p a (itemsOfAll (ss.take i)) ∧
      extent (itemsOfAll (ss.take (i + 1))) =
        extent (itemsOfAll (ss.take i)) + extent (itemsOf st) := by
  have hlt : i < ss.length := (List.getElem?_eq_some_iff.1 hi).1
  have hsplit : ss = ss.take i ++ (st :: ss.drop (i + 1)) := by
    rw [← (List.getElem?_eq_some_iff.1 hi).2, getElem_cons_drop, take_append_drop]
  rw [hsplit, itemsOfAll_append, itemsOfAll] at h
  obtain ⟨h1, h23⟩ := h.append
  refine ⟨h23.append.1, h1.placed, ?_⟩
  rw [take_add_one, hi, itemsOfAll_append, extent_append]
  simp [itemsOfAll]

lemma Site.code (h : Site p s0 lo a (.node n :: is)) : p.code[a]? = some n := h.placed.node

lemma Site.lt_stop (h : Site p s0 lo a (.node n :: is)) : a < s0.frame.fn.stop := by
  have := h.le_stop
  simp only [extent] at this
  omega

end

/-! ### Demands -/

/-- Runs follow evaluations exactly: the same worlds, the same faults, and these are to be
expected. Where unset registers must not be used, an evaluation is given up in the state
that uses one. -/
def faithful (p : Program) (care : Care) : Agreement where
  world w w' := w = w'
  fault c c' := c = c' ∧ c.Expected
  checked _ := True
  target src s := ReadsTarget p src s
  unset s := care ≠ .fills ∧ (care = .takes → TakesUnset p s)

/-- How a run leaves a piece of code that starts with the operands `S`. A jump to a label of
`scope` finds the stack as it was; one to a label of `esc` may leave operands behind. -/
def leaving (M : Setup) (Q : State → Prop) (care : Care) (s0 : State) (esc scope : List String)
    (S : Operands) : Exits Env where
  go l ρ s := ∃ b S' t, M.program.labels[l]? = some b ∧ s = s0.stand b ρ S' t ∧
    (l ∈ scope ∧ S' = S ∨ l ∈ esc ∧ S.items <:+ S'.items)
  home vs ρ s := Q s ∧ ∃ b S' t, step M s = leave M.program vs (s0.stand b ρ S' t) ∧
    s0.operands.items <:+ S'.items
  fault c ρ s := Fails M Q (faithful M.program care) c ρ.world s
  target c src ρ s := Fails M Q (faithful M.program care) c ρ.world s ∧
    (faithful M.program care).target src s
  unset s := (faithful M.program care).unset s

/-- What holds while a piece of a function runs. The code stands from `lo` on, and the operands
`G` were there before it. -/
structure Scene (M : Setup) (Q : State → Prop) (cx : Context) (ok : String → Prop) (s0 : State)
    (G : Operands) (lo : Nat) : Prop where
  strict : cx.mode.lax = false
  lo_le : s0.frame.fn.start ≤ lo
  ground : s0.operands.items <:+ G.items
  watch : ∀ {a ρ S t n}, lo ≤ a → a < s0.frame.fn.stop → M.program.code[a]? = some n →
    Level M.program s0 G a S → G.height + pops n ≤ S.height →
    (cx.mode.care ≠ .fills → ∀ name, .reg name none ∉ S.items.take (takes n)) →
    Q (s0.stand a ρ S t)
  calls : Calls M Q (faithful M.program cx.mode.care) cx.budget ok s0.frame.fn.name s0.depth
    cx.call

section

variable {M : Setup} {Q : State → Prop} {cx : Context} {ok : String → Prop} {s0 : State}
  {G S S' : Operands} {lo a k : Nat} {esc scope : List String} {is : List Item} {n : Node}
  {ρ ρ' ρ0 : Env} {t t' : List Called} {α : Type} {fin : α → Env → State → Prop} {c : Fault}
  {r : EStateM.Result Stop Env α}

lemma leaving_le {care : Care} (h : S.items <:+ S'.items) :
    (leaving M Q care s0 esc [] S').Le (leaving M Q care s0 esc scope S) where
  go := by
    rintro l ρ s ⟨b, S'', t, hb, rfl, ⟨hl, -⟩ | ⟨hl, hS⟩⟩
    · simp at hl
    · exact ⟨b, S'', t, hb, rfl, .inr ⟨hl, h.trans hS⟩⟩
  home := id
  fault := id
  target := id
  unset := id

namespace Scene

variable (sc : Scene M Q cx ok s0 G lo)

include sc

lemma watched (hs : Site M.program s0 lo a (.node n :: is)) (hl : Level M.program s0 G a S)
    (hp : G.height + pops n ≤ S.height)
    (hu : cx.mode.care ≠ .fills → ∀ name, .reg name none ∉ S.items.take (takes n)) :
    Q (s0.stand a ρ S t) :=
  sc.watch hs.lo_le hs.lt_stop hs.code hl hp hu

lemma next (hs : Site M.program s0 lo a (.node n :: is)) (hq : Q (s0.stand a ρ S t))
    (he : exec M.program n (s0.stand a ρ S t) = .ok .next (s0.stand a ρ' S' t'))
    (h : Lands M Q k X fin (s0.stand (a + 1) ρ' S' t') r) :
    Lands M Q k X fin (s0.stand a ρ S t) r :=
  .step hq (step_next (le_trans sc.lo_le hs.lo_le) hs.lt_stop hs.code he) h

lemma fails (hs : Site M.program s0 lo a (.node n :: is)) (hq : Q (s0.stand a ρ S t))
    (he : exec M.program n (s0.stand a ρ S t) = .error c s') (hc : c.Expected)
    (hw : ρ'.world = s'.world) :
    Fails M Q (faithful M.program cx.mode.care) c ρ'.world (s0.stand a ρ S t) :=
  ⟨hq, c, s', step_error (le_trans sc.lo_le hs.lo_le) hs.lt_stop hs.code he, ⟨rfl, hc⟩, hw⟩

omit sc in
lemma unset (hs : Site M.program s0 lo a (.node n :: is)) (hc : cx.mode.care ≠ .fills)
    (hm : .reg name none ∈ S.items.take (takes n)) :
    (faithful M.program cx.mode.care).unset (s0.stand a ρ S t) := by
  refine ⟨hc, fun _ => ⟨?_, n, name, ?_, hm⟩⟩
  · have := hs.lt_stop
    simp only [State.stand_ip, State.stand_fn]
    omega
  · simpa only [State.stand_ip, Int.toNat_natCast] using hs.code

omit sc in
lemma take (hs : Site M.program s0 lo a (.node n :: is)) (ho : o ∈ S.items.take (takes n))
    (h : ∀ {v ρ'}, Eval.take cx.mode.care o ρ = .ok v ρ' →
      (cx.mode.care ≠ .fills → ∀ name, o ≠ .reg name none) →
      Lands M Q k (leaving M Q cx.mode.care s0 esc scope S') fin (s0.stand a ρ0 S t) (f v ρ')) :
    Lands M Q k (leaving M Q cx.mode.care s0 esc scope S') fin (s0.stand a ρ0 S t)
      ((Eval.take cx.mode.care o >>= f) ρ) := by
  cases hr : Eval.take cx.mode.care o ρ with
  | ok v ρ' =>
    rw [bind_ok hr]
    exact h hr fun hc => ne_of_word? (env_of_take hc hr).2
  | error e ρ' =>
    rw [bind_error hr]
    obtain ⟨rfl, hc, name, rfl⟩ := unset_of_take_error hr
    exact .now (unset hs hc ho)

end Scene

/-! ### Expressions and statements -/

lemma load_of_ok (h : ρ.world.heap.load v = .ok w) : Eval.load v ρ = .ok w ρ := by
  simp only [Eval.load, Eval.onWorld, World.inspect, h]

lemma load_of_error (h : ρ.world.heap.load v = .error c) : Eval.load v ρ = .error (.fault c) ρ := by
  simp only [Eval.load, Eval.onWorld, World.inspect, h]

def Pushed (s0 : State) (b : Nat) (S : Operands) (o : Operand) (ρ : Env) (s : State) : Prop :=
  ∃ t, s = s0.stand b ρ (S.push o) t

def PushedAll (s0 : State) (b : Nat) (S : Operands) (count : Nat) (os : List Operand) (ρ : Env)
    (s : State) : Prop :=
  os.length = count ∧ ∃ t, s = s0.stand b ρ (S.append os) t

def Passed (s0 : State) (b : Nat) (S : Operands) (_ : Unit) (ρ : Env) (s : State) : Prop :=
  ∃ t, s = s0.stand b ρ S t

lemma address_of_label (hp : Placed p a (itemsOfAll ss)) (hi : ss[i]? = some (.label l)) :
    p.labels[l]? = some (a + extent (itemsOfAll (ss.take i))) := by
  induction ss generalizing a i with
  | nil => simp at hi
  | cons s ss ih =>
    obtain ⟨hs, hss⟩ := hp.append
    cases i with
    | zero =>
      obtain rfl : s = .label l := by simpa using hi
      simpa [itemsOfAll, extent] using hs.1
    | succ i =>
      have := ih hss (by simpa using hi)
      simpa [itemsOfAll, add_assoc] using this

lemma isSome_of_mem_labelsIn (hp : Placed p a (itemsOfAll ss)) (hl : l ∈ labelsIn ss) :
    (p.labels[l]?).isSome := by
  obtain ⟨i, hi⟩ := List.getElem?_of_mem (mem_labelsIn.1 hl)
  simp [address_of_label hp hi]

lemma Scene.call (sc : Scene M Q cx ok s0 G lo) (hf : ok f)
    (hs : Site M.program s0 lo a (.node n :: is)) (hn : IsCall n f os.length)
    (h : Eval.takeAll cx.mode.care os ρ = .ok vs ρ')
    (hq : Q (s0.stand a ρ ((S.push (.symbol f M.program.labels[f]?)).append os) t)) :
    Lands M Q cx.budget (leaving M Q cx.mode.care s0 esc scope S)
      (fun results ρ1 s => Q s ∧ ∃ ρ2 t', step M s = returned n results (s0.stand a ρ2 S t') ∧
        ρ1 = { ρ2 with regs := ρ2.regs.setAll retReg 1 results })
      (s0.stand a ρ ((S.push (.symbol f M.program.labels[f]?)).append os) t)
      (Eval.callBy cx.call f vs ρ') := by
  refine Lands.callBy (sc.calls.lands hf (le_trans sc.lo_le hs.lo_le) hs.lt_stop hs.code hn h
    rfl hq) id (fun htarget => htarget trivial) id ?_
  rintro results w s ⟨hq', w', t', rfl, hstep⟩
  exact ⟨hq', _, t', hstep, rfl⟩

lemma takeAll_lands (hs : Site M.program s0 lo a (.node n :: is))
    (ho : ∀ o ∈ os, o ∈ S.items.take (takes n))
    (h : ∀ {vs ρ'}, Eval.takeAll cx.mode.care os ρ = .ok vs ρ' →
      (cx.mode.care ≠ .fills → ∀ name, .reg name none ∉ os) →
      Lands M Q k (leaving M Q cx.mode.care s0 esc scope S') fin (s0.stand a ρ0 S t) (f vs ρ')) :
    Lands M Q k (leaving M Q cx.mode.care s0 esc scope S') fin (s0.stand a ρ0 S t)
      ((Eval.takeAll cx.mode.care os >>= f) ρ) := by
  cases hr : Eval.takeAll cx.mode.care os ρ with
  | ok vs ρ' =>
    rw [bind_ok hr]
    exact h hr fun hc => (env_of_takeAll hc hr).2
  | error e ρ' =>
    rw [bind_error hr]
    obtain ⟨rfl, hc, name, hm⟩ := unset_of_takeAll_error hr
    exact .now (Scene.unset hs hc (ho _ hm))

variable (M Q cx s0 G lo esc) in
/-- The machine follows the evaluation of an expression, wherever it stands. -/
def FollowsExpr (x : Expr) : Prop :=
  ∀ ⦃a ρ S t⦄, Site M.program s0 lo a (itemsOfExpr x) → Level M.program s0 G a S →
    Lands M Q cx.budget (leaving M Q cx.mode.care s0 esc [] S)
      (Pushed s0 (a + extent (itemsOfExpr x)) S) (s0.stand a ρ S t) (x.eval cx ρ)

variable (M Q cx s0 G lo esc) in
/-- The machine follows the evaluation of expressions. -/
def FollowsExprs (xs : List Expr) : Prop :=
  ∀ ⦃a ρ S t⦄, Site M.program s0 lo a (itemsOfExprs xs) → Level M.program s0 G a S →
    Lands M Q cx.budget (leaving M Q cx.mode.care s0 esc [] S)
      (PushedAll s0 (a + extent (itemsOfExprs xs)) S xs.length) (s0.stand a ρ S t)
      (Expr.evalAll cx xs ρ)

variable (M Q cx s0 G lo esc) in
/-- The machine follows the evaluation of a statement, in a scope of labels. -/
def FollowsStmt (scope : List String) (st : Stmt) : Prop :=
  ∀ ⦃a ρ S t⦄, Site M.program s0 lo a (itemsOf st) → Level M.program s0 G a S →
    Lands M Q cx.budget (leaving M Q cx.mode.care s0 esc scope S)
      (Passed s0 (a + extent (itemsOf st)) S) (s0.stand a ρ S t) (st.eval cx ρ)

namespace Scene

variable (sc : Scene M Q cx ok s0 G lo)

variable {x : Expr} {f : String} {args : List Expr} {ss : List Stmt}

include sc

lemma const (v : Int32) : FollowsExpr M Q cx s0 G lo esc (.const v) := by
  intro a ρ S t hs hl
  refine sc.next hs (sc.watched hs hl hl.le ?_) exec_const (.done ⟨t, rfl⟩)
  simp [takes]

lemma temp (name : String) : FollowsExpr M Q cx s0 G lo esc (.temp name) := by
  intro a ρ S t hs hl
  have hq : Q (s0.stand a ρ S t) := sc.watched hs hl hl.le (by simp [takes])
  rw [Expr.eval, Eval.readRegister]
  cases hv : ρ.regs.get? name with
  | some v =>
    refine sc.next hs hq (exec_temp name) (.done ⟨t, ?_⟩)
    rw [hv]
    rfl
  | none =>
    by_cases hc : cx.mode.care = .reads
    · simp only [hc, if_true]
      exact .now ⟨by simp, by simp⟩
    · simp only [hc, if_false]
      refine sc.next hs hq (exec_temp name) (.done ⟨t, ?_⟩)
      rw [hv]
      rfl

/-- An operand is evaluated, and the node after it takes its word. -/
lemma operand {f : Int32 → Eval α} (hx : FollowsExpr M Q cx s0 G lo esc x)
    (hs : Site M.program s0 lo a (itemsOfExpr x))
    (hn : Site M.program s0 lo (a + extent (itemsOfExpr x)) (.node n :: is)) (hone : takes n = 1)
    (hl : Level M.program s0 G a S) (hp : G.height + pops n ≤ S.height + 1)
    (hS : S'.items <:+ S.items)
    (h : ∀ {o v ρ1 ρ2 t1}, Eval.take cx.mode.care o ρ1 = .ok v ρ2 →
      Q (s0.stand (a + extent (itemsOfExpr x)) ρ1 (S.push o) t1) →
      Lands M Q cx.budget (leaving M Q cx.mode.care s0 esc scope S') fin
        (s0.stand (a + extent (itemsOfExpr x)) ρ1 (S.push o) t1) (f v ρ2)) :
    Lands M Q cx.budget (leaving M Q cx.mode.care s0 esc scope S') fin (s0.stand a ρ S t)
      ((x.eval cx >>= fun o => Eval.take cx.mode.care o >>= f) ρ) := by
  refine (hx hs hl).bind (leaving_le hS) ?_
  rintro o ρ1 _ - ⟨t1, rfl⟩
  refine Scene.take hn (by simp [hone]) fun {v ρ2} hv hno => h hv ?_
  exact sc.watched hn (hl.expr hs.placed) hp (by simpa [hone, eq_comm] using hno)

lemma mem (hx : FollowsExpr M Q cx s0 G lo esc x) : FollowsExpr M Q cx s0 G lo esc (.mem x) := by
  intro a ρ S t hs hl
  rw [itemsOfExpr] at hs
  obtain ⟨hs1, hs2⟩ := hs.append
  rw [Expr.eval]
  refine sc.operand hx hs1 hs2 rfl hl (Nat.add_le_add_right hl.le 1) (List.suffix_refl _)
    fun {o v ρ1 ρ2 t1} hv hq => ?_
  have he := exec_mem (p := M.program) (s := s0) (a := a + extent (itemsOfExpr x)) (S := S)
    (t := t1) (x := x) hv
  cases hw : ρ2.world.heap.load v with
  | ok w =>
    rw [hw] at he
    rw [bind_ok (load_of_ok hw)]
    refine sc.next hs2 hq he (.done ⟨t1, ?_⟩)
    simp [itemsOfExpr, extent, Nat.add_assoc]
  | error c =>
    rw [hw] at he
    rw [bind_error (load_of_error hw)]
    exact .now (sc.fails hs2 hq he (Heap.plain_of_load hw).expected rfl)

lemma binop (hop : op ∈ BinOp.defined) (hx : FollowsExpr M Q cx s0 G lo esc x)
    (hy : FollowsExpr M Q cx s0 G lo esc y) : FollowsExpr M Q cx s0 G lo esc (.binop op x y) := by
  intro a ρ S t hs hl
  rw [itemsOfExpr] at hs
  obtain ⟨hs12, hs3⟩ := hs.append
  obtain ⟨hs1, hs2⟩ := hs12.append
  rw [extent_append, ← Nat.add_assoc] at hs3
  rw [Expr.eval]
  refine (hx hs1 hl).bind (.refl _) ?_
  rintro o1 ρ1 _ - ⟨t1, rfl⟩
  have hl1 := hl.expr hs1.placed (o := o1)
  refine (hy hs2 hl1).bind (leaving_le (List.suffix_cons _ _)) ?_
  rintro o2 ρ2 _ - ⟨t2, rfl⟩
  have hl2 := hl1.expr hs2.placed (o := o2)
  refine Scene.take hs3 (by simp [takes]) fun {v1 ρ3} hv1 hno1 => ?_
  refine Scene.take hs3 (by simp [takes]) fun {v2 ρ4} hv2 hno2 => ?_
  have hq : Q (s0.stand (a + extent (itemsOfExpr x) + extent (itemsOfExpr y)) ρ2
      ((S.push o1).push o2) t2) := by
    refine sc.watched hs3 hl2 (Nat.add_le_add_right hl.le 2) fun hc name => ?_
    simpa [takes] using ⟨(hno2 hc name).symm, (hno1 hc name).symm⟩
  have he := exec_binop (p := M.program) (s := s0)
    (a := a + extent (itemsOfExpr x) + extent (itemsOfExpr y)) (S := S) (t := t2)
    (x := x) (y := y) op hv1 hv2
  cases hw : Word.binop op v1 v2 with
  | ok w =>
    simp only [hw] at he ⊢
    refine sc.next hs3 hq he (.done ⟨t2, ?_⟩)
    simp [itemsOfExpr, extent, Nat.add_assoc]
  | error c =>
    simp only [hw] at he ⊢
    exact .now (sc.fails hs3 hq he (Word.expected_of_binop hop hw) rfl)

lemma unop (hx : FollowsExpr M Q cx s0 G lo esc x) :
    FollowsExpr M Q cx s0 G lo esc (.unop op x) := by
  intro a ρ S t hs hl
  rw [itemsOfExpr] at hs
  obtain ⟨hs1, hs2⟩ := hs.append
  rw [Expr.eval]
  refine sc.operand hx hs1 hs2 rfl hl (Nat.add_le_add_right hl.le 1) (List.suffix_refl _)
    fun {o v ρ1 ρ2 t1} hv hq => ?_
  refine sc.next hs2 hq (exec_unop hv) (.done ⟨t1, ?_⟩)
  simp [itemsOfExpr, extent, Nat.add_assoc]

lemma eseq (hst : FollowsStmt M Q cx s0 G lo esc [] st) (hx : FollowsExpr M Q cx s0 G lo esc x) :
    FollowsExpr M Q cx s0 G lo esc (.eseq st x) := by
  intro a ρ S t hs hl
  rw [itemsOfExpr] at hs
  obtain ⟨hs12, hs3⟩ := hs.append
  obtain ⟨hs1, hs2⟩ := hs12.append
  rw [extent_append, ← add_assoc] at hs3
  rw [Expr.eval]
  refine (hst hs1 hl).bind (.refl _) ?_
  rintro _ ρ1 _ - ⟨t1, rfl⟩
  have hl1 := hl.stmt hs1.placed
  refine (hx hs2 hl1).andThen (.refl _) ?_
  rintro o ρ2 _ - ⟨t2, rfl⟩
  have hl2 := hl1.expr hs2.placed (o := o)
  refine sc.next hs3 (sc.watched hs3 hl2 hl2.le (by simp [takes])) exec_eseq (.done ⟨t2, ?_⟩)
  simp [itemsOfExpr, extent, add_assoc]

omit sc in
lemma nil : FollowsExprs M Q cx s0 G lo esc [] :=
  fun _ _ _ t _ _ => .done ⟨rfl, t, rfl⟩

omit sc in
lemma cons (hx : FollowsExpr M Q cx s0 G lo esc x) (hxs : FollowsExprs M Q cx s0 G lo esc xs) :
    FollowsExprs M Q cx s0 G lo esc (x :: xs) := by
  intro a ρ S t hs hl
  rw [itemsOfExprs] at hs
  obtain ⟨hs1, hs2⟩ := hs.append
  rw [Expr.evalAll]
  refine (hx hs1 hl).bind (.refl _) ?_
  rintro o ρ1 _ - ⟨t1, rfl⟩
  have hl1 := hl.expr hs1.placed (o := o)
  refine (hxs hs2 hl1).bind (leaving_le (suffix_cons _ _)) ?_
  rintro os ρ2 _ - ⟨hlen, t2, rfl⟩
  refine .done ⟨by simp [hlen], t2, ?_⟩
  rw [← Operands.append_singleton, Operands.append_append]
  simp [itemsOfExprs, add_assoc]

lemma callWith (hf : ok f) (hargs : FollowsExprs M Q cx s0 G lo esc args)
    (hn : IsCall n f args.length) (hpops : pops n = args.length + 1)
    (htakes : takes n = args.length)
    (hs : Site M.program s0 lo a (itemsOfExpr (.name f) ++ itemsOfExprs args ++ [.node n]))
    (hl : Level M.program s0 G a S) {k : List Int32 → Eval α} (hk : ∀ {results ρ' t' s}, Q s →
      step M s = returned n results (s0.stand (a + 1 + extent (itemsOfExprs args)) ρ' S t') →
      Lands M Q cx.budget (leaving M Q cx.mode.care s0 esc scope S) fin s
        (k results { ρ' with regs := ρ'.regs.setAll retReg 1 results })) :
    Lands M Q cx.budget (leaving M Q cx.mode.care s0 esc scope S) fin (s0.stand a ρ S t)
      ((Expr.evalAll cx args >>= fun os => Eval.takeAll cx.mode.care os >>= fun vs =>
        Eval.callBy cx.call f vs >>= k) ρ) := by
  obtain ⟨hs12, hs3⟩ := hs.append
  obtain ⟨hs1, hs2⟩ := hs12.append
  rw [extent_append, ← add_assoc] at hs3
  have hl1 := hl.expr hs1.placed (o := .symbol f M.program.labels[f]?)
  refine sc.next hs1 (sc.watched hs1 hl hl.le (by simp [takes])) (exec_name f) ?_
  refine (hargs hs2 hl1).bind (leaving_le (suffix_cons _ _)) ?_
  rintro os ρ1 _ - ⟨hlen, t1, rfl⟩
  have hl2 := hl1.exprs hs2.placed hlen
  have htop : (((S.push (.symbol f M.program.labels[f]?)).append os).items.take (takes n)) =
      os.reverse := by
    simp [htakes, ← hlen]
  refine takeAll_lands hs3 (by rw [htop]; simp) fun {vs ρ2} hvs hno => ?_
  have hq : Q (s0.stand (a + extent (itemsOfExpr (.name f)) + extent (itemsOfExprs args)) ρ1
      ((S.push (.symbol f M.program.labels[f]?)).append os) t1) := by
    refine sc.watched hs3 hl2 ?_ (by rw [htop]; simpa using hno)
    have := hl.le
    simp only [hpops, Operands.height_append, Operands.height_push, hlen]
    omega
  refine (sc.call hf hs3 (hlen ▸ hn) hvs hq).bind (.refl _) ?_
  rintro results _ s - ⟨hq', ρ3, t3, hstep, rfl⟩
  exact hk hq' hstep

lemma callExpr (hf : ok f) (hargs : FollowsExprs M Q cx s0 G lo esc args) :
    FollowsExpr M Q cx s0 G lo esc (.call (.name f) args) := by
  intro a ρ S t hs hl
  rw [Expr.eval]
  refine sc.callWith hf hargs (.inl ⟨args, rfl, rfl⟩) rfl rfl hs hl ?_
  intro results ρ1 t1 s hq hstep
  rw [returned_expr] at hstep
  refine .step hq hstep (.done ⟨t1, ?_⟩)
  rw [show a + extent (itemsOfExpr (.call (.name f) args)) =
    a + 1 + extent (itemsOfExprs args) + 1 by simp [itemsOfExpr, extent]; omega]

lemma callStmt (hf : ok f) (hargs : FollowsExprs M Q cx s0 G lo esc args) :
    FollowsStmt M Q cx s0 G lo esc scope (.call returns (.name f) args) := by
  intro a ρ S t hs hl
  rw [Stmt.eval]
  refine sc.callWith hf hargs (.inr ⟨returns, args, rfl, rfl⟩) rfl rfl hs hl ?_
  intro results ρ1 t1 s hq hstep
  rw [returned_stmt] at hstep
  by_cases hr : 0 < returns ∧ (results.length : Int) < returns
  · rw [if_pos hr] at hstep ⊢
    exact .now ⟨hq, _, _, hstep, ⟨rfl, trivial⟩, rfl⟩
  · rw [if_neg hr] at hstep ⊢
    refine .step hq hstep (.done ⟨t1, ?_⟩)
    rw [show a + extent (itemsOf (.call returns (.name f) args)) =
      a + 1 + extent (itemsOfExprs args) + 1 by simp [itemsOf, itemsOfExpr, extent]; omega]

lemma moveTemp (hx : FollowsExpr M Q cx s0 G lo esc x) :
    FollowsStmt M Q cx s0 G lo esc scope (.move (.temp name) x) := by
  intro a ρ S t hs hl
  rw [itemsOf] at hs
  obtain ⟨hs12, hs3⟩ := hs.append
  obtain ⟨hs1, hs2⟩ := hs12.append
  rw [extent_append, ← Nat.add_assoc] at hs3
  have hl1 := hl.expr hs1.placed (o := .reg name (ρ.regs.get? name))
  refine sc.next hs1 (sc.watched hs1 hl hl.le (by simp [takes])) (exec_temp name) ?_
  rw [Stmt.eval]
  · refine sc.operand hx hs2 hs3 rfl hl1 (Nat.add_le_add_right hl.le 2) (List.suffix_cons _ _)
      fun {o v ρ1 ρ2 t1} hv hq => ?_
    refine sc.next hs3 hq (exec_move_temp hv) (.done ⟨t1, ?_⟩)
    simp [itemsOf, itemsOfExpr, extent, Nat.add_assoc, Nat.add_comm 1]
  · simp

lemma moveMem (hx : FollowsExpr M Q cx s0 G lo esc x) (hy : FollowsExpr M Q cx s0 G lo esc y) :
    FollowsStmt M Q cx s0 G lo esc scope (.move (.mem x) y) := by
  intro a ρ S t hs hl
  rw [itemsOf, itemsOfExpr, List.append_assoc, List.append_assoc] at hs
  obtain ⟨hs1, hs234⟩ := hs.append
  obtain ⟨hs2, hs34⟩ := hs234.append
  obtain ⟨hs3, hs4⟩ := hs34.append
  rw [Stmt.eval]
  refine sc.operand hx hs1 hs2 rfl hl (Nat.add_le_add_right hl.le 1) (List.suffix_refl _)
    fun {o v ρ1 ρ2 t1} hv hq => ?_
  have he := exec_mem (p := M.program) (s := s0) (a := a + extent (itemsOfExpr x)) (S := S)
    (t := t1) (x := x) hv
  simp only [sc.strict, Bool.not_false, if_true, Bool.false_eq_true, if_false]
  cases hw : ρ2.world.heap.load v with
  | error c =>
    rw [hw] at he
    have hcheck : Eval.checkTarget y v ρ2 = .error (.target c y) ρ2 := by
      rw [Eval.checkTarget, hw]
    rw [bind_error hcheck]
    refine .now ⟨sc.fails hs2 hq he (Heap.plain_of_load hw).expected rfl, ?_⟩
    refine ⟨by have := hs2.lt_stop; simp; omega, x, ?_, ?_⟩
    · simpa only [State.stand_ip, Int.toNat_natCast] using hs2.code
    · simpa only [State.stand_ip, Int.toNat_natCast, extent, Nat.zero_add] using hs4.code
  | ok w =>
    rw [hw] at he
    have hcheck : Eval.checkTarget y v ρ2 = .ok () ρ2 := by rw [Eval.checkTarget, hw]
    rw [bind_ok hcheck]
    refine sc.next hs2 hq he ?_
    have hmem : Placed M.program a (itemsOfExpr (.mem x)) :=
      placed_append.2 ⟨hs1.placed, hs2.placed⟩
    have hl2 : Level M.program s0 G (a + extent (itemsOfExpr x) + 1) (S.push (.mem v w)) := by
      simpa [itemsOfExpr, extent, Nat.add_assoc] using hl.expr hmem (o := .mem v w)
    refine sc.operand hy hs3 hs4 rfl hl2 (Nat.add_le_add_right hl.le 2) (List.suffix_cons _ _)
      fun {o' u ρ3 ρ4 t3} hu hq' => ?_
    have he' := exec_move_mem (p := M.program) (s := s0)
      (a := a + extent (itemsOfExpr x) + 1 + extent (itemsOfExpr y)) (S := S) (t := t3)
      (x := .mem x) (y := y) (u := w) (w := v) hu
    unfold Eval.onWorld
    cases hst : World.store v u ρ4.world with
    | ok _ world =>
      rw [hst] at he'
      refine sc.next hs4 hq' he' (.done ⟨t3, ?_⟩)
      rw [show a + extent (itemsOf (.move (.mem x) y)) =
        a + extent (itemsOfExpr x) + 1 + extent (itemsOfExpr y) + 1 by
          simp [itemsOf, itemsOfExpr, extent]; omega]
    | error c world =>
      rw [hst] at he'
      exact .now (sc.fails hs4 hq' he' (World.plain_store v u _ _ _ hst).expected rfl)

lemma exp (hx : FollowsExpr M Q cx s0 G lo esc x) :
    FollowsStmt M Q cx s0 G lo esc scope (.exp x) := by
  intro a ρ S t hs hl
  rw [itemsOf] at hs
  obtain ⟨hs1, hs2⟩ := hs.append
  rw [Stmt.eval]
  refine (hx hs1 hl).bind (leaving_le (List.suffix_refl _)) ?_
  rintro o ρ1 _ - ⟨t1, rfl⟩
  have hl1 := hl.expr hs1.placed (o := o)
  refine sc.next hs2 (sc.watched hs2 hl1 (Nat.add_le_add_right hl.le 1) (by simp [takes]))
    exec_exp (.done ⟨t1, ?_⟩)
  simp [itemsOf, extent, Nat.add_assoc]

lemma jump (hl : l ∈ scope ∨ l ∈ esc) (hlab : (M.program.labels[l]?).isSome) :
    FollowsStmt M Q cx s0 G lo esc scope (.jump (.name l)) := by
  intro a ρ S t hs hlev
  rw [itemsOf] at hs
  obtain ⟨hs1, hs2⟩ := hs.append
  obtain ⟨b, hb⟩ := Option.isSome_iff_exists.1 hlab
  have hl1 := hlev.expr hs1.placed (o := .symbol l M.program.labels[l]?)
  refine sc.next hs1 (sc.watched hs1 hlev hlev.le (by simp [takes])) (exec_name l) ?_
  have hq : Q (s0.stand (a + 1) ρ (S.push (.symbol l M.program.labels[l]?)) t) :=
    sc.watched hs2 hl1 (Nat.add_le_add_right hlev.le 1) (by simp [takes])
  rw [hb] at hq ⊢
  refine .jump hq (step_goto (Nat.le_trans sc.lo_le hs2.lo_le) hs2.lt_stop hs2.code exec_jump)
    ⟨b, S, t, hb, rfl, ?_⟩
  exact hl.imp (fun h => ⟨h, rfl⟩) fun h => ⟨h, List.suffix_refl _⟩

lemma cjump (hx : FollowsExpr M Q cx s0 G lo esc x) (hyes : yes ∈ scope ∨ yes ∈ esc)
    (hno : no ∈ scope ∨ no ∈ esc)
    (hlab : ∀ l, l ∈ scope ∨ l ∈ esc → (M.program.labels[l]?).isSome) :
    FollowsStmt M Q cx s0 G lo esc scope (.cjump x yes no) := by
  intro a ρ S t hs hl
  rw [itemsOf] at hs
  obtain ⟨hs1, hs2⟩ := hs.append
  rw [Stmt.eval]
  refine sc.operand hx hs1 hs2 rfl hl (Nat.add_le_add_right hl.le 1) (List.suffix_refl _)
    fun {o v ρ1 ρ2 t1} hv hq => ?_
  have hin : (if v ≠ 0 then yes else no) ∈ scope ∨ (if v ≠ 0 then yes else no) ∈ esc := by
    split
    · exact hyes
    · exact hno
  obtain ⟨b, hb⟩ := Option.isSome_iff_exists.1 (hlab _ hin)
  refine .jump hq
    (step_goto (Nat.le_trans sc.lo_le hs2.lo_le) hs2.lt_stop hs2.code (exec_cjump hv hb))
    ⟨b, S, t1, hb, rfl, ?_⟩
  exact hin.imp (fun h => ⟨h, rfl⟩) fun h => ⟨h, List.suffix_refl _⟩

lemma ret (hxs : FollowsExprs M Q cx s0 G lo esc xs) :
    FollowsStmt M Q cx s0 G lo esc scope (.ret xs) := by
  intro a ρ S t hs hl
  rw [itemsOf] at hs
  obtain ⟨hs1, hs2⟩ := hs.append
  rw [Stmt.eval]
  refine (hxs hs1 hl).bind (leaving_le (suffix_refl _)) ?_
  rintro os ρ1 _ - ⟨hlen, t1, rfl⟩
  have hl1 := hl.exprs hs1.placed hlen
  have htop : (S.append os).items.take (takes (.stmt (.ret xs))) = os.reverse := by
    simp [takes, ← hlen]
  refine takeAll_lands hs2 (by rw [htop]; simp) fun {vs ρ2} hvs hreg => ?_
  have hq : Q (s0.stand (a + extent (itemsOfExprs xs)) ρ1 (S.append os) t1) := by
    refine sc.watched hs2 hl1 ?_ (by rw [htop]; simpa using hreg)
    have := hl.le
    simp only [pops, Operands.height_append, hlen]
    omega
  refine .now ⟨hq, _, S, t1, step_leave (le_trans sc.lo_le hs2.lo_le) hs2.lt_stop hs2.code
    (exec_ret hlen.symm hvs), sc.ground.trans hl.below⟩

omit sc in
lemma passes (hdis : ∀ l ∈ labelsIn ss, l ∉ esc)
    (hss : ∀ st ∈ ss, FollowsStmt M Q cx s0 G lo esc scope st)
    (hs : Site M.program s0 lo a (itemsOfAll ss)) (hl : Level M.program s0 G a S) :
    Passes M Q cx cx.budget (leaving M Q cx.mode.care s0 esc scope S) ss
      (fun i => Passed s0 (a + extent (itemsOfAll (ss.take i))) S ()) := by
  refine ⟨?_, ?_⟩
  · rintro i st ρ _ hi ⟨t, rfl⟩
    obtain ⟨hst, hbefore, hext⟩ := hs.nth hi
    rw [hext, ← add_assoc]
    exact hss st (mem_of_getElem? hi) hst (hl.stmts hbefore)
  · rintro i l ρ _ hi ⟨b, S', t, hb, rfl, hor⟩
    have hl : l ∈ labelsIn ss := mem_labelsIn.2 (mem_of_getElem? hi)
    obtain ⟨-, rfl⟩ := hor.resolve_right fun h => hdis l hl h.1
    rw [address_of_label hs.placed hi] at hb
    obtain rfl := Option.some.inj hb
    exact ⟨t, rfl⟩

omit sc in
lemma list (hdis : ∀ l ∈ labelsIn ss, l ∉ esc)
    (hss : ∀ st ∈ ss, FollowsStmt M Q cx s0 G lo esc scope st)
    (hs : Site M.program s0 lo a (itemsOfAll ss)) (hl : Level M.program s0 G a S) :
    Lands M Q cx.budget (leaving M Q cx.mode.care s0 esc scope S)
      (Passed s0 (a + extent (itemsOfAll ss)) S) (s0.stand a ρ S t)
      ((Stmt.seq ss).eval cx ρ) := by
  have hstart : Passed s0 (a + extent (itemsOfAll (ss.take 0))) S () ρ (s0.stand a ρ S t) :=
    ⟨t, by simp [itemsOfAll, extent]⟩
  have hrun := (passes hdis hss hs hl).seq (fun _ h => h) (.refl _) le_rfl hstart
  rwa [take_length] at hrun

lemma seq (hdis : ∀ l ∈ labelsIn ss, l ∉ esc)
    (hss : ∀ st ∈ ss, FollowsStmt M Q cx s0 G lo esc (labelsIn ss ++ scope) st) :
    FollowsStmt M Q cx s0 G lo esc scope (.seq ss) := by
  intro a ρ S t hs hl
  rw [itemsOf] at hs
  obtain ⟨hs1, hs2⟩ := hs.append
  have hrun : Lands M Q cx.budget (leaving M Q cx.mode.care s0 esc scope S)
      (fun _ => Passed s0 (a + extent (itemsOfAll (ss.take ss.length))) S ())
      (s0.stand a ρ S t) ((Stmt.seq ss).eval cx ρ) := by
    refine (passes hdis hss hs1 hl).seq ?_ ⟨id, id, id, id, id⟩ le_rfl
      ⟨t, by simp [itemsOfAll, extent]⟩
    rintro l ρ _ hl ⟨b, S', t, hb, rfl, hor⟩
    refine ⟨b, S', t, hb, rfl, hor.imp (fun h => ⟨?_, h.2⟩) id⟩
    exact (mem_append.1 h.1).resolve_left hl
  refine hrun.andThen (.refl _) ?_
  rintro _ ρ1 _ - ⟨t1, rfl⟩
  rw [take_length]
  have hl1 := hl.stmts hs1.placed
  refine sc.next hs2 (sc.watched hs2 hl1 hl1.le (by simp [takes])) exec_seq (.done ⟨t1, ?_⟩)
  simp [itemsOf, extent, add_assoc]

end Scene

mutual

/-- The machine follows the evaluation of a confined expression. -/
lemma follows_expr (sc : Scene M Q cx ok s0 G lo)
    (hesc : ∀ l ∈ esc, (M.program.labels[l]?).isSome) :
    (x : Expr) → x.Confined ok esc → FollowsExpr M Q cx s0 G lo esc x
  | .const v, _ => sc.const v
  | .temp name, _ => sc.temp name
  | .mem x, h => sc.mem (follows_expr sc hesc x h)
  | .binop _ x y, h => sc.binop h.1 (follows_expr sc hesc x h.2.1) (follows_expr sc hesc y h.2.2)
  | .unop _ x, h => sc.unop (follows_expr sc hesc x h)
  | .call (.name _) args, h => sc.callExpr h.1 (follows_exprs sc hesc args h.2)
  | .eseq st x, h =>
    sc.eseq (follows_stmt sc hesc st h.1 (by simp)) (follows_expr sc hesc x h.2)

lemma follows_exprs (sc : Scene M Q cx ok s0 G lo)
    (hesc : ∀ l ∈ esc, (M.program.labels[l]?).isSome) :
    (xs : List Expr) → Expr.ConfinedAll ok esc xs → FollowsExprs M Q cx s0 G lo esc xs
  | [], _ => Scene.nil
  | x :: xs, h => Scene.cons (follows_expr sc hesc x h.1) (follows_exprs sc hesc xs h.2)

/-- The machine follows the evaluation of a confined statement. -/
lemma follows_stmt (sc : Scene M Q cx ok s0 G lo)
    (hesc : ∀ l ∈ esc, (M.program.labels[l]?).isSome) {scope} : (st : Stmt) →
    st.Confined ok esc scope → (∀ l ∈ scope, (M.program.labels[l]?).isSome) →
    FollowsStmt M Q cx s0 G lo esc scope st
  | .skip, _, _ => by intro a ρ S t _ _; exact .done ⟨t, rfl⟩
  | .label _, _, _ => by intro a ρ S t _ _; exact .done ⟨t, rfl⟩
  | .seq ss, h, hlab => by
    intro a ρ S t hs hl
    refine sc.seq h.1 (follows_stmts sc hesc ss h.2 fun l hmem => ?_) hs hl
    rcases mem_append.1 hmem with hmem | hmem
    · exact isSome_of_mem_labelsIn (Site.append hs).1.placed hmem
    · exact hlab l hmem
  | .move (.temp _) x, h, _ => sc.moveTemp (follows_expr sc hesc x h)
  | .move (.mem x) y, h, _ =>
    sc.moveMem (follows_expr sc hesc x h.1) (follows_expr sc hesc y h.2)
  | .exp x, h, _ => sc.exp (follows_expr sc hesc x h)
  | .jump (.name l), h, hlab => sc.jump h (h.elim (hlab l) (hesc l))
  | .cjump x _ _, h, hlab =>
    sc.cjump (follows_expr sc hesc x h.1) h.2.1 h.2.2 fun l hl => hl.elim (hlab l) (hesc l)
  | .ret xs, h, _ => sc.ret (follows_exprs sc hesc xs h)
  | .call _ (.name _) args, h, _ => sc.callStmt h.1 (follows_exprs sc hesc args h.2)

lemma follows_stmts (sc : Scene M Q cx ok s0 G lo)
    (hesc : ∀ l ∈ esc, (M.program.labels[l]?).isSome) {scope} : (ss : List Stmt) →
    Stmt.ConfinedAll ok esc scope ss → (∀ l ∈ scope, (M.program.labels[l]?).isSome) →
    ∀ st ∈ ss, FollowsStmt M Q cx s0 G lo esc scope st
  | [], _, _ => by simp
  | st :: ss, h, hlab =>
    forall_mem_cons.2 ⟨follows_stmt sc hesc st h.1 hlab, follows_stmts sc hesc ss h.2 hlab⟩

end

end

end TreeMachine.Machine
