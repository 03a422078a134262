import TreeMachine.Proofs.Checks
import TreeMachine.Proofs.SizedArrays
import TreeMachine.Proofs.TreeEvaluation

/-!
# The calls that code makes on its own

The code of a program calls two things that the program does not mention: `malloc`, where arrays
and texts are made, and `_outOfBounds`, where an index is refused. Both are called by name like
anything else, and the functions of the program come before the library. So a program that
defines a function of one of these names gets the calls. In a program that does not, all memory
comes from the library, and all indices out of range end the run.
-/

namespace TreeMachine.Structured.Compile

/-- A request for memory, whose address goes to a register. -/
def request (B : String) (bytes : Expr) : Stmt :=
  .move (.temp B) (malloc bytes)

/-- Code that asks for memory, puts a length into its first word and refers to the word after it.
In an array of rows every row is made in the same way. -/
inductive Obtains : List Stmt → Expr → Prop where
  | literal {B bytes length moves} :
    Obtains [.seq (request B bytes :: .move (.mem (.temp B)) length :: moves)]
      (plus (.temp B) word)
  | sized {B R bytes length} :
    Obtains [request B bytes, .move (.mem (.temp B)) length, .move (.temp R) (plus (.temp B) word)]
      (.temp R)
  | rows {B R bytes length j alloc row begin body stop} : Obtains alloc row →
    Obtains ([request B bytes, .move (.mem (.temp B)) length,
        .move (.temp R) (plus (.temp B) word)] ++
      [.move j (.const 0), .label begin, .cjump (.binop .lt j length) body stop, .label body] ++
      alloc ++
      [.move (.mem (plus (.temp R) (times j word))) row, .move j (plus j (.const 1)), jumpTo begin,
        .label stop]) (.temp R)

lemma obtains_string (h : (expr scopes trap (.string span text)).value c = .ok (x, c')) :
    ∃ st ref, x = .eseq st ref ∧ Obtains [st] ref := by
  cases (byRules_expr scopes trap _).value h with
  | string => exact ⟨_, _, rfl, .literal⟩
  | flag hl => exact hl.elim

lemma AllocOf.obtains (h : AllocOf size rest c alloc ref c') : Obtains alloc ref := by
  induction h with
  | one => exact .sized
  | rows _ ih => exact .rows ih

lemma obtains_declared (h : declaredArray scopes trap sizes elements c = .ok ((code, ref), c')) :
    ∃ moves alloc, code = moves ++ alloc ∧ Obtains alloc ref := by
  cases arrayOf_of_declaredArray h with
  | sizes _ halloc => exact ⟨_, _, rfl, halloc.obtains⟩
  | elements _ => exact ⟨[], _, rfl, .literal⟩

end TreeMachine.Structured.Compile

namespace TreeMachine.Structured

lemma word_malloc_eq :
    (Compile.malloc x).word cx = do
      let n ← x.word cx
      return (← Eval.callBy cx.call "malloc" [n]).headD 0 := by
  rw [word_malloc, Expr.word]
  simp only [Expr.evalAll, Eval.takeAll, bind_assoc, pure_bind]

end TreeMachine.Structured

namespace TreeMachine.Flat

open Structured.Compile

variable {taken : Taken} {ok lab : String → Prop} {k k' : Nat} {code : List Stmt}

lemma LowersAll.single (h : LowersAll taken ok lab [] [e] k code ys k') :
    ∃ pre y, code = pre ∧ ys = [y] ∧ LowersExpr taken ok lab e k pre y k' := by
  cases h with
  | cons he hj h =>
    obtain ⟨rfl, rfl, rfl⟩ := hj.of_nil
    obtain ⟨rfl, rfl, rfl⟩ := h.of_nil
    exact ⟨_, _, by simp, rfl, he⟩

lemma lift_call (hdest : dest ≠ "") : (Stmt.call n dest (.name f) xs).lift =
      .move (.temp dest) (.call (.name f) (xs.map Expr.lift)) := by
  have hne : ¬dest.isEmpty := by simpa [String.isEmpty_iff] using hdest
  rw [Stmt.lift, if_neg hne]
  rfl

lemma of_lowersStmt_request (hB : B ≠ "")
    (h : LowersStmt taken ok lab (request B bytes) k code k') :
    ∃ k1 pre dest st y rest, LowersExpr taken ok lab bytes k1 pre y k' ∧
      code = pre ++ st :: rest ∧ st.lift = request dest y.lift ∧
      (dest = B ∧ rest = [] ∨ rest = [.moveTemp B (.temp dest)]) := by
  cases h with
  | moveCall _ _ hargs =>
    obtain ⟨pre, y, rfl, rfl, hy⟩ := hargs.single
    exact ⟨_, _, _, _, y, _, hy, rfl, lift_call hB, .inl ⟨rfl, rfl⟩⟩
  | moveTemp _ he =>
    cases he with
    | call _ hfresh hargs =>
      obtain ⟨pre, y, rfl, rfl, hy⟩ := hargs.single
      have hdest := hfresh.eq ▸ numbered_ne_empty _ _
      exact ⟨_, _, _, _, y, _, hy, by rw [List.append_assoc]; rfl, lift_call hdest, .inr rfl⟩

end TreeMachine.Flat

namespace TreeMachine.Machine

open Structured
open Structured.Compile
open Linear

/-- The run enters a function with arguments, in a world; or it fails, if calls are nested as deep
as they may be. -/
def Enters (M : Setup) (s : State) (f : Function) (args : List Int32) (w : World) : Prop :=
  if M.maxDepth ≤ s.depth then FailsFrom M s (.callDepthExceeded s.depth)
  else ∃ s', Reaches M s s' ∧ Program.Holds M.program f s'.frame.fn ∧
    s'.frame.ip = s'.frame.fn.start ∧ s'.frame.regs = Registers.setAll {} argReg 1 args ∧
    s'.world = w ∧ s'.depth = s.depth + 1

/-- The library is asked for bytes: the address it gives is in the register `B` when the run comes
to `b`, or the run fails as the library does. -/
def Granted (M : Setup) (s : State) (b : Nat) (B : String) (n : Int32) (ρ : Env) : Prop :=
  match World.alloc n ρ.world with
  | .ok addr world => ∃ t, Reaches M s
    (s.stand b { regs := (ρ.regs.setAll retReg 1 [addr]).set B addr, world } s.operands t)
  | .error c _ => FailsFrom M s c

/-- When the number of bytes has been evaluated, a request for memory goes to the function that is
called `malloc`, and to the library if there is none. -/
def Supplies (M : Setup) (u : CodeUnit) (s : State) (b : Nat) (B : String) (bytes : Expr) : Prop :=
  ∀ {fuel n ρ}, bytes.word (s.context u M fuel) s.env = .ok n ρ →
    match u.lookup "malloc" with
    | some f => Enters M s f [n] ρ.world
    | none => Granted M s b B n ρ

/-- An index that is out of range goes to the function that is called `_outOfBounds`, and is refused
if there is none. -/
def Reports (M : Setup) (u : CodeUnit) (s : State) (c : Nat) (ρ : Env) : Prop :=
  match u.lookup "_outOfBounds" with
  | some f => Enters M s f [] ρ.world
  | none => Refuses M s c ρ

section

variable {M : Setup} {u : CodeUnit} {g : Function} {s : State}

lemma enters_of_call (hp : Program.ofUnit u = .ok M.program) (hf : u.lookup name = some f)
    {ρ ρ' : Env} {S : Operands} (os : List Operand) (hlo : s.frame.fn.start ≤ c)
    (hhi : c < s.frame.fn.stop) (hc : M.program.code[c]? = some n) (hn : IsCall n name os.length)
    (h : Eval.takeAll .fills os ρ = .ok vs ρ')
    (hs : Reaches M s (s.stand c ρ ((S.push (.symbol name M.program.labels[name]?)).append os) t)) :
    Enters M s f vs ρ'.world := by
  obtain ⟨hmem, rfl⟩ := mem_of_lookup hf
  obtain ⟨r, hr, hh⟩ := Program.holds_of_ofUnit hp hmem
  have hcallee : callee M.program f.name r.start = .ok r := by simp [callee, hr]
  have hstep := step_call_function (S := S) (t := t) hlo hhi hc hn h hh.label hcallee
  unfold Enters
  by_cases hd : M.maxDepth ≤ s.depth
  · rw [if_pos hd] at hstep ⊢
    exact ⟨_, _, hs, hstep⟩
  · rw [if_neg hd] at hstep ⊢
    exact ⟨_, hs.trans ⟨1, .head trivial hstep (.refl _)⟩, hh, rfl, rfl, rfl, rfl⟩

lemma Traps.reports (h : Traps M s c ρ t b) (hp : Program.ofUnit u = .ok M.program)
    (hnone : u.lookup "_outOfBounds" = none → M.program.labels["_outOfBounds"]? = none) :
    Reports M u s c ρ := by
  unfold Reports
  cases hf : u.lookup "_outOfBounds" with
  | none => exact h.refuses (hnone hf)
  | some f =>
    obtain ⟨node, hnode, hcall⟩ := h.trap.call
    have hlo := h.trap.start_le
    exact enters_of_call hp hf [] (by omega) h.trap.lt_stop hnode hcall rfl
      (h.reaches.trans h.path.reaches)

variable (h : Inside M u g s) (hconf : ∀ f ∈ u.functions, f.Confined (Callable u))
  {B : String} {bytes : Expr} {a : Nat}
  (hocc : Occurs (.stmt g.body) s.frame.fn.start (.stmt (request B bytes)) a) (hip : s.frame.ip = a)

include h hconf hocc hip

lemma Inside.granted (hn : bytes.word (s.context u M fuel) s.env = .ok n ρ)
    (hnone : u.lookup "malloc" = none) :
    Granted M s (a + extent (itemsOf (request B bytes))) B n ρ := by
  obtain ⟨s0, h0, hs⟩ := h.started
  have hbefore := before_of_reaches h.program hconf h0 hs h.member h.holds hocc
    (Structured.ne_body_of_move hconf h.member) hip
  have hcall := Structured.call_malloc ⟨.fills, false⟩ M.maxDepth fuel s.depth s.frame.fn.name hnone
    n ρ.world
  unfold Granted
  cases hw : World.alloc n ρ.world with
  | ok addr world =>
    rw [hw] at hcall
    have hby : Eval.callBy (s.context u M fuel).call "malloc" [n] ρ =
        .ok [addr] { regs := ρ.regs.setAll retReg 1 [addr], world } := by
      rw [Eval.callBy, show (s.context u M fuel).call "malloc" [n] ρ.world = _ from hcall]
    have hword : (Structured.Compile.malloc bytes).word (s.context u M fuel) s.env =
        .ok addr { regs := ρ.regs.setAll retReg 1 [addr], world } := by
      rw [Structured.word_malloc_eq, bind_ok hn, bind_ok hby]
      rfl
    exact hbefore.passes h.program hconf (Structured.eval_moveTemp hword)
  | error c world =>
    rw [hw] at hcall
    have hby : Eval.callBy (s.context u M fuel).call "malloc" [n] ρ =
        .error (.fault c) { ρ with world } := by
      rw [Eval.callBy, show (s.context u M fuel).call "malloc" [n] ρ.world = _ from hcall]
    have hword : (Structured.Compile.malloc bytes).word (s.context u M fuel) s.env =
        .error (.fault c) { ρ with world } := by
      rw [Structured.word_malloc_eq, bind_ok hn, bind_error hby]
    exact hbefore.faults h.program hconf (.inl (Structured.eval_moveTemp_error hword))

lemma Inside.enters (hn : bytes.word (s.context u M fuel) s.env = .ok n ρ)
    (hf : u.lookup "malloc" = some f) : Enters M s f [n] ρ.world := by
  obtain ⟨esc, -, scope, -, hokay, hbytes, -⟩ :=
    (hconf g h.member).part hocc (Structured.ne_body_of_move hconf h.member)
  obtain ⟨hplaced, hlo, hend⟩ := hocc.placed h.holds.placed
  have hstop : s.frame.fn.stop = s.frame.fn.start + extent (Linear.itemsOfNode (.stmt g.body)) :=
    h.holds.stop
  have hitems : Linear.itemsOfNode (.stmt (request B bytes)) =
      .node (.expr (.temp B)) :: .node (.expr (.name "malloc")) :: (itemsOfExpr bytes ++
        [.node (.expr (Structured.Compile.malloc bytes)), .node (.stmt (request B bytes))]) := by
    simp [Linear.itemsOfNode, request, Structured.Compile.malloc, itemsOf, itemsOfExpr,
      Linear.itemsOfExprs]
  rw [hitems] at hplaced hend
  obtain ⟨hB, hname, hrest⟩ := hplaced
  obtain ⟨-, hcall, -⟩ := hrest.append
  simp only [extent, Linear.extent_append] at hend
  -- the register and the name
  have hnames : Reaches M s (s.stand (a + 1 + 1) s.env
      ((s.operands.push (.reg B (s.env.regs.get? B))).push
        (.symbol "malloc" M.program.labels["malloc"]?)) s.trace) := by
    have hrun : Reaches M (s.stand a s.env s.operands s.trace) _ :=
      ⟨2, .head trivial (step_next hlo (by omega) hB (exec_temp B))
        (.head trivial (step_next (by omega) (by omega) hname (exec_name _)) (.refl _))⟩
    rwa [State.stand_env hip] at hrun
  -- the bytes
  obtain ⟨s0, h0, hs⟩ := h.started
  have hpart := hocc.trans (.part [.expr (.temp B)] [] rfl
    (.part [.expr (.name "malloc")] [] rfl (.self (.expr bytes) _)))
  have hbefore := before_of_reaches h.program hconf h0 (hs.trans hnames) h.member h.holds hpart
    (by simp) rfl
  have hnot : ∀ l, bytes ≠ .name l := by
    rintro l rfl
    exact hbytes
  rw [Expr.word] at hn
  obtain ⟨o, ρ1, he, hn⟩ := bind_eq_ok hn
  obtain ⟨t, hbytes⟩ := hbefore.pushes h.program hconf hnot he
  replace hn : Eval.take .fills o ρ1 = .ok n ρ := hn
  have htake : Eval.takeAll .fills [o] ρ1 = .ok [n] ρ := by
    rw [Eval.takeAll, bind_ok hn]
    rfl
  -- the call
  exact enters_of_call h.program hf [o] (by omega) (by omega) hcall
    (.inl ⟨_, rfl, rfl⟩) htake (hnames.trans hbytes)

lemma Inside.supplies : Supplies M u s (a + extent (itemsOf (request B bytes))) B bytes := by
  intro fuel n ρ hn
  cases hf : u.lookup "malloc" with
  | none => exact h.granted hconf hocc hip hn hf
  | some f => exact h.enters hconf hocc hip hn hf

end

/-! ### The calls of a resolved program -/

/-- The requests in a function are answered, from the states of a run on. -/
def AnswersRequests (M : Setup) (u : CodeUnit) (g : Function) (s : State) : Prop :=
  ∀ {B bytes a}, Occurs (.stmt g.body) s.frame.fn.start (.stmt (request B bytes)) a →
    s.frame.ip = a → Supplies M u s (a + extent (itemsOf (request B bytes))) B bytes

/-- An index of an array that has a length, and is not below it. -/
def OutOfRange (cx : Context) (A I : String) (sa si : List Stmt) (ρ ρ' : Env) : Prop :=
  ∃ ref n k, Indexes cx A I sa si ρ ref k ρ' ∧ ρ'.world.heap.load (ref - 4) = .ok n ∧
    0 ≤ n.toInt ∧ ¬(0 ≤ k.toInt ∧ k.toInt < n.toInt)

/-- The checks in a function report what is out of range, from the states of a run on. -/
def AnswersChecks (M : Setup) (u : CodeUnit) (g : Function) (s : State) : Prop :=
  ∀ {scopes array idx c check addr c' a},
    boundsCheck (trapOf g.name) (expr scopes (trapOf g.name) array).value
      (expr scopes (trapOf g.name) idx).value c = .ok ((check, addr), c') →
    Occurs (.stmt g.body) s.frame.fn.start (.stmt check) a → s.frame.ip = a →
    ∃ A I yes xa xi c1, CheckOf scopes (trapOf g.name) array idx c A I yes xa xi c1 ∧
      check = checkCode (.temp A) (.temp I) xa xi yes (trapOf g.name) ∧
      ∀ fuel ρ, OutOfRange (s.context u M fuel) A I [.move (.temp A) xa]
        [.move (.temp I) xi] s.env ρ →
        Reports M u s (a + extent (itemsOfAll [.move (.temp A) xa, .move (.temp I) xi])) ρ

/-- The requests in a structured function are somewhere in its lowered form, as requests. -/
def KeepsRequests (taken : Flat.Taken) (ok : String → Prop) (f : Function)
    (g : Flat.Function) : Prop :=
  ∀ {B bytes a}, B ≠ "" → Occurs (.stmt f.body) 0 (.stmt (request B bytes)) a →
    (∃ before code, StmtBehind taken ok f g (request B bytes) before code) ∧
    ∀ {before code}, StmtBehind taken ok f g (request B bytes) before code →
      ∃ pre dest st y rest, code = pre ++ st :: rest ∧ st.lift = request dest y ∧
        (dest = B ∧ rest = [] ∨ rest = [.moveTemp B (.temp dest)])

/-- So are the checks, and wherever they are, they report what is out of range. -/
def AnswersChecksLowered (M : Setup) (taken : Flat.Taken) (ok : String → Prop) (v : CodeUnit)
    (f : Function) (g : Flat.Function) (s : State) : Prop :=
  ∀ {scopes array idx c check addr c' a},
    boundsCheck (trapOf f.name) (expr scopes (trapOf f.name) array).value
      (expr scopes (trapOf f.name) idx).value c = .ok ((check, addr), c') →
    Occurs (.stmt f.body) 0 (.stmt check) a →
    (∃ before code, StmtBehind taken ok f g check before code) ∧
    ∀ {before code lo}, StmtBehind taken ok f g check before code →
      s.frame.fn.start + extent (itemsOfAll (before.map Flat.Stmt.lift)) = lo → s.frame.ip = lo →
      ∃ A I yes xa xi c1 ca ci, CheckOf scopes (trapOf f.name) array idx c A I yes xa xi c1 ∧
        LowersParts taken ok f A I xa xi ca ci ∧
        code = ca ++ ci ++ Flat.comparedAt A I yes (trapOf f.name) ∧
        ∀ fuel ρ, OutOfRange (s.context v M fuel) A I (ca.map Flat.Stmt.lift)
            (ci.map Flat.Stmt.lift) s.env ρ →
          Reports M v s (lo + extent (itemsOfAll (ca.map Flat.Stmt.lift ++ ci.map Flat.Stmt.lift)))
            ρ

lemma CheckAt.reports (h : Inside M v g s) (hconf : ∀ f ∈ v.functions, f.Confined (Callable v))
    (hc : CheckAt M (Callable v) s.frame.fn A I yes sa si lo esc scope) (hip : s.frame.ip = lo)
    (hnone : v.lookup "_outOfBounds" = none → M.program.labels["_outOfBounds"]? = none)
    (he : OutOfRange (s.context v M fuel) A I sa si s.env ρ) :
    Reports M v s (lo + extent (itemsOfAll (sa ++ si))) ρ := by
  obtain ⟨ref, n, k, hindex, hlength, hnonneg, hk⟩ := he
  obtain ⟨s0, h0, hs⟩ := h.started
  obtain ⟨t, b, htraps⟩ := hc.traps h.program hconf h0 hs hip hindex hlength
    (fun hlt => hk ((Heap.toUInt32_lt_iff hnonneg).1 hlt))
  exact htraps.reports h.program hnone

section

variable {p q : Tree.Program} {u : CodeUnit} {M : Setup} {s : State} (hq : p.resolve = .ok q)
  (hu : CodeUnit.ofTree q = .ok u)

include hu

lemma lookup_eq_none_iff_tree (name : String) :
    u.lookup name = none ↔ ∀ f ∈ q.functions, f.name ≠ name := by
  obtain ⟨scope, -, hfs⟩ := Structured.Compile.functionsOf_of_ofTree hu
  rw [lookup_eq_none_iff, hfs.names.1]
  simp

include hq

lemma Inside.answersChecks (h : Inside M u g s) : AnswersChecks M u g s := by
  intro scopes array idx c check addr c' a hcode hocc hip
  obtain ⟨A, I, yes, xa, xi, c1, hcheck, heq⟩ := Structured.Compile.checkOf_of_boundsCheck hcode
  cases heq
  obtain ⟨esc, scope, hc⟩ := h.checkAt hq hu hcheck hocc
  exact ⟨A, I, yes, xa, xi, c1, hcheck, rfl, fun fuel ρ he =>
    CheckAt.reports h (Structured.confined_of_ofTree hq hu) hc hip
      (labels_routine hu h.program (by decide) (by decide)) he⟩

variable {l : Flat.CodeUnit} {f : Function} {g : Flat.Function}
  (hl : Flat.CodeUnit.ofStructured u = .ok l)

include hl

lemma lookup_lift_eq_none_iff (name : String) : l.lift.lookup name = none ↔
    u.lookup name = none := by
  have hlow := Flat.lowered_of_ofStructured (confined_of_ofTree hq hu) hl
  rw [lookup_eq_none_iff, lookup_eq_none_iff, Flat.names_lift hlow]

variable (hf : f ∈ u.functions) (hfg : Flat.Lowered (Std.TreeSet.ofList u.temps) (Callable u) f g)

include hf hfg

omit hl in
lemma keepsRequests : KeepsRequests (Std.TreeSet.ofList u.temps) (Callable u) f g := by
  intro B bytes a hB hocc
  refine ⟨exists_stmtBehind hfg hocc (ne_body_of_move (confined_of_ofTree hq hu) hf), ?_⟩
  rintro before code ⟨after, k, k', -, hcode⟩
  obtain ⟨-, pre, dest, st, y, rest, -, hcode, hst, hdest⟩ := Flat.of_lowersStmt_request hB hcode
  exact ⟨pre, dest, st, y.lift, rest, hcode, hst, hdest⟩

lemma Inside.answersChecksLowered (h : Inside M l.lift g.lift s) :
    AnswersChecksLowered M (Std.TreeSet.ofList u.temps) (Callable u) l.lift f g s := by
  intro scopes array idx c check addr c' a hcode hocc
  obtain ⟨A, I, yes, xa, xi, c1, hcheck, heq⟩ := Structured.Compile.checkOf_of_boundsCheck hcode
  cases heq
  refine ⟨exists_stmtBehind hfg hocc (checkCode_ne hq hu hf), ?_⟩
  rintro before code lo hbehind rfl hip
  obtain ⟨ca, ci, hparts, rfl, hc⟩ := h.checkAt_lowered hq hu hl hf hfg hcheck hbehind
  refine ⟨A, I, yes, xa, xi, c1, ca, ci, hcheck, hparts, rfl, fun fuel ρ he => ?_⟩
  refine CheckAt.reports h (Flat.confined_lift (Structured.confined_of_ofTree hq hu) hl) hc hip
    (fun hnone => ?_) he
  exact labels_routine_lowered hq hu hl h.program (by decide) (by decide)
    ((lookup_lift_eq_none_iff hq hu hl _).1 hnone)

end

/-- To whom the calls go that code makes on its own. Texts and arrays are made in memory that is
asked for by calls of `malloc`, and an index that is out of range leads to a call of
`_outOfBounds`. In every run of structured or lowered code such a call goes to the function of the
program that has the name. Just if there is none, it goes to the library, which gives new memory
or fails, and ends the run of an access with the name of the function. -/
theorem inserted_calls {p q : Tree.Program} {u : CodeUnit} (hq : p.resolve = .ok q)
    (hu : CodeUnit.ofTree q = .ok u) :
    (∀ name, u.lookup name = none ↔ ∀ f ∈ q.functions, f.name ≠ name) ∧
    (∀ {scopes trap span text c x c'},
      (expr scopes trap (.string span text)).value c = .ok (x, c') →
      ∃ st ref, x = .eseq st ref ∧ Obtains [st] ref) ∧
    (∀ {scopes trap sizes elements c code ref c'},
      Structured.Compile.declaredArray scopes trap sizes elements c = .ok ((code, ref), c') →
      ∃ moves alloc, code = moves ++ alloc ∧ Obtains alloc ref) ∧
    (∀ {M g s}, Inside M u g s → AnswersRequests M u g s ∧ AnswersChecks M u g s) ∧
    ∀ {l}, Flat.CodeUnit.ofStructured u = .ok l →
      (∀ name, l.lift.lookup name = none ↔ u.lookup name = none) ∧
      ∀ g ∈ l.functions, ∃ f ∈ u.functions,
        Flat.Lowered (Std.TreeSet.ofList u.temps) (Callable u) f g ∧
        KeepsRequests (Std.TreeSet.ofList u.temps) (Callable u) f g ∧
        ∀ {M s}, Inside M l.lift g.lift s → AnswersRequests M l.lift g.lift s ∧
          AnswersChecksLowered M (Std.TreeSet.ofList u.temps) (Callable u) l.lift f g s := by
  have hconf := Structured.confined_of_ofTree hq hu
  refine ⟨lookup_eq_none_iff_tree hu, Structured.Compile.obtains_string,
    Structured.Compile.obtains_declared,
    fun h => ⟨fun hocc hip => h.supplies hconf hocc hip, h.answersChecks hq hu⟩, fun hl => ?_⟩
  refine ⟨lookup_lift_eq_none_iff hq hu hl, fun g hg => ?_⟩
  obtain ⟨f, hf, hfg⟩ := Flat.exists_of_forall₂ (Flat.lowered_of_ofStructured hconf hl) hg
  refine ⟨f, hf, hfg, keepsRequests hq hu hf hfg, fun h =>
    ⟨fun hocc hip => h.supplies (Flat.confined_lift hconf hl) hocc hip,
      h.answersChecksLowered hq hu hl hf hfg⟩⟩

/-- A program with a function of its own for indices out of range. Its `main` reads an element that
the array does not have. -/
def capturing : Tree.Program where
  name := "capturing"
  functions := [
    { name := "_outOfBounds"
      returns := [.int]
      body := some { stmts := [.ret {} [.int {} 7]] } },
    { name := "main"
      returns := [.int]
      body := some {
        stmts := [
          .array {} "a" (some (.array .int)) [] [.int {} 7, .int {} 9],
          .ret {} [.index {} none (.ident { name := "a" }) (.int {} 2)]] } }]

def capturedCheck : Stmt :=
  checkCode (.temp "aA.2") (.temp "aI.3") (.temp "a") (.const 2) "bounds.ok.1" "main.bounds"

def captured : CodeUnit where
  name := "capturing"
  functions := [
    { name := "_outOfBounds"
      params := []
      body := .seq [.seq [.ret [.const 7]]] },
    { name := "main"
      params := []
      body := .seq [
        .seq [
          .seq [Structured.Compile.literalCode (.temp "aB.1") [.const 7, .const 9],
            .move (.temp "a") (Structured.Compile.plus (.temp "aB.1") Structured.Compile.word)],
          .ret [.eseq capturedCheck
            (.mem (Structured.Compile.elementAddr (.temp "aA.2") (.temp "aI.3")))]],
        .ret [], .label "main.bounds", .exp (.call (.name "_outOfBounds") [])] }]

lemma code_of_capturing : (capturing.resolve >>= CodeUnit.ofTree) = .ok captured := rfl

/-- The run of `main` comes to the function of the program. -/
theorem inserted_calls_capturing :
    ∃ q m s0 s, capturing.resolve = .ok q ∧ CodeUnit.ofTree q = .ok captured ∧
      ofUnit? (some captured) {} = .ok m ∧ m.start "main" 4 [] = .ok s0 ∧ Reaches m.setup s0 s ∧
      Enters m.setup s captured.functions[0] [] s.world := by
  obtain ⟨q, hq, hu⟩ := Except.bind_eq_ok code_of_capturing
  have hrun : ((ofUnit? (some captured) {}).toOption.bind fun m =>
    (m.start "main" 4 []).toOption.bind fun s0 => (ahead m.setup 28 s0).map fun s =>
      decide (m.setup.program.entry "main" = some ⟨"main", 4, 60⟩ ∧
        s.frame.fn = ⟨"main", 4, 60⟩ ∧ s.frame.ip = 32 ∧ s.frame.regs.get? "a" = some 8 ∧
        s.world.heap.load 4 = .ok 2)) = some true := by
    decide +kernel
  obtain ⟨m, hm, hrun⟩ := Except.bind_eq_some.1 hrun
  obtain ⟨s0, hs0, hrun⟩ := Except.bind_eq_some.1 hrun
  obtain ⟨s, hs, hrun⟩ := Option.map_eq_some_iff.1 hrun
  obtain ⟨hentry, hfn, hip, ha, hlength⟩ := of_decide_eq_true hrun
  have hreach := reaches_of_ahead hs
  have hp := program_of_ofUnit? hm
  have hmem : captured.functions[1] ∈ captured.functions := List.getElem_mem _
  have hh := holds_of_entry hm hmem hentry
  have hstarted : Started m.setup captured s0 := started_of_entry hm hmem hentry hs0
  have hinside : Inside m.setup captured captured.functions[1] s :=
    ⟨hp, hmem, hfn ▸ hh, s0, hstarted, hreach⟩
  have hocc : Occurs (.stmt captured.functions[1].body) s.frame.fn.start
    (.stmt capturedCheck) 32 := by
    rw [hfn]
    exact .part [] _ rfl (.part [.stmt _] [] rfl (.part [] [] rfl (.part [] _ rfl (.self _ 32))))
  have hcode : boundsCheck (trapOf captured.functions[1].name)
      (expr [] (trapOf captured.functions[1].name)
        (.ident { name := "a", symbol := some { id := 1, name := "a", kind := .variable } })).value
      (expr [] (trapOf captured.functions[1].name) (.int {} 2)).value
      { temps := 1, bound := [(1, "a")] } =
    .ok ((capturedCheck, Structured.Compile.elementAddr (.temp "aA.2") (.temp "aI.3")),
      { temps := 3, labels := 1, bound := [(1, "a")], traps := true }) := rfl
  obtain ⟨-, -, -, hanswers, -⟩ := inserted_calls hq hu
  obtain ⟨A, I, yes, xa, xi, -, -, hcheck, hreports⟩ := (hanswers hinside).2 hcode hocc hip
  obtain ⟨rfl, rfl, rfl, rfl⟩ : A = "aA.2" ∧ I = "aI.3" ∧ xa = .temp "a" ∧ xi = .const 2 := by
    unfold capturedCheck checkCode at hcheck
    cases hcheck
    exact ⟨rfl, rfl, rfl, rfl⟩
  have hrange : OutOfRange (s.context captured m.setup 0) "aA.2" "aI.3"
      [.move (.temp "aA.2") (.temp "a")] [.move (.temp "aI.3") (.const 2)] s.env
      { regs := (s.frame.regs.set "aA.2" 8).set "aI.3" 2, world := s.world } := by
    refine ⟨8, 2, 2, ⟨{ regs := s.frame.regs.set "aA.2" 8, world := s.world }, ?_,
      Registers.get?_set_self _ _ _, ?_, Registers.get?_set_self _ _ _⟩, hlength, by decide,
      by decide⟩
    · rw [Structured.eval_seq]
      exact Structured.resume_ok (Structured.eval_moveTemp (Structured.word_temp ha))
    · have hword : ∀ ρ, (Expr.const 2).word (s.context captured m.setup 0) ρ =
        .ok 2 ρ := fun _ => rfl
      rw [Structured.eval_seq]
      exact Structured.resume_ok (Structured.eval_moveTemp (hword _))
  exact ⟨q, m, s0, s, hq, hu, hm, hs0, hreach, hreports 0 _ hrange⟩

/-- An index out of range does not end the run of a program that captures the trap: `main` returns,
and without a result. -/
theorem trap_captured :
    ∃ q u m m', capturing.resolve = .ok q ∧ CodeUnit.ofTree q = .ok u ∧
      ofUnit? (some u) {} = .ok m ∧ m.callAll 100 "main" [] = some (.ok [], m') := by
  have hrun : (capturing.resolve.toOption.bind fun q =>
    (CodeUnit.ofTree q).toOption.bind fun u =>
    (ofUnit? (some u) {}).toOption.bind fun m =>
    (m.callAll 100 "main" []).map fun r => decide (r.1.toOption = some [])) = some true := by
    decide +kernel
  simp only [Except.bind_eq_some] at hrun
  obtain ⟨q, hq, u, hu, m, hm, hrun⟩ := hrun
  obtain ⟨⟨r, m'⟩, hcall, hrun⟩ := Option.map_eq_some_iff.1 hrun
  obtain rfl := Except.eq_ok_of_toOption (of_decide_eq_true hrun)
  exact ⟨q, u, m, m', hq, hu, hm, hcall⟩

end TreeMachine.Machine
