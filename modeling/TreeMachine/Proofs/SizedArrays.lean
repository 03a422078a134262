import TreeMachine.Proofs.Bounds
import TreeMachine.Proofs.CompiledPrograms

/-!
# The storage of sized arrays

The declaration of an array with a size asks for one word more than there are elements, for the
length. The number of bytes is computed in a word, and so it may wrap around: then the array has
less storage than its length says. That happens just for sizes that are negative or at least
`2 ^ 30`. For all others the declaration fails or the array fits.
-/

namespace TreeMachine.Heap

/-- The bytes that a declaration with a size asks for. -/
def requested (n : Int32) : Int32 :=
  (n + 1) * 4

/-- A declaration with a size gets what it asks for, and this is at least the length word. -/
def Affords (h : Heap) (n : Int32) : Prop :=
  0 < (requested n).toInt ∧ (h.used : Int) + (requested n).toInt ≤ h.limit

/-- What a declaration with a size does to the heap: a block is added at its end, with the length
in the first word and zeros after it. -/
structure Sized (h h' : Heap) (n ref : Int32) : Prop where
  start : ref.toInt = h.used + 4
  stop : (h'.used : Int) = h.used + (requested n).toInt
  length : h'.load (ref - 4) = .ok n
  zero : ∀ {a : Int32}, 4 ∣ a.toInt → ref.toInt ≤ a.toInt → a.toInt < h'.used → h'.load a = .ok 0
  kept : ∀ {a : Int32}, h.Accessible a → h'.load a = h.load a

lemma toInt_requested (n : Int32) : (requested n).toInt = (4 * (n.toInt + 1)).bmod (2 ^ 32) := by
  have hone : (1 : Int32).toInt = 1 := rfl
  rw [requested, Int32.toInt_mul, Int32.toInt_add, hone, toInt_four, Int.bmod_mul_bmod,
    Int.mul_comm]

section

variable {h h' : Heap} {n ref : Int32}

lemma four_dvd_requested (n : Int32) : 4 ∣ (requested n).toInt := by
  rw [toInt_requested, Int.bmod_def]
  omega

/-- The bytes that are asked for are added. -/
lemma used_extend_requested (ha : h.Affords n) :
    ((h.extend (requested n).toInt.toNat).used : Int) = h.used + (requested n).toInt := by
  obtain ⟨hpos, hroom⟩ := ha
  have hdvd := four_dvd_requested n
  rw [used_extend h (by omega) (by omega)]
  omega

lemma sized_of_affords (hlimit : h.limit < 2 ^ 31) (ha : h.Affords n) :
    h.Sized ((h.extend (requested n).toInt.toNat).write h.words n) n
      (Int32.ofNat h.used + 4) := by
  have hused := used_extend_requested ha
  obtain ⟨hpos, hroom⟩ := ha
  have hdvd := four_dvd_requested n
  have hreserved := h.reserved
  have hwords := h.used_eq
  have hgrown := (h.extend (requested n).toInt.toNat).used_eq
  have hend : h.words < (h.extend (requested n).toInt.toNat).words := by omega
  have hbase : (Int32.ofNat h.used).toInt = h.used := Int32.toInt_ofNat_of_lt (by omega)
  have href : (Int32.ofNat h.used + 4).toInt = h.used + 4 := by
    rw [Int32.toInt_add, hbase, toInt_four, Int.bmod_eq_of_le (by omega) (by omega)]
  refine ⟨href, by rw [used_write]; exact hused, ?_, fun {a} hfa hlo hhi => ?_, fun {a} hacc => ?_⟩
  · have hsub : Int32.ofNat h.used + 4 - 4 = Int32.ofNat h.used := by simp
    rw [hsub]
    refine load_eq_ok_iff.2 ⟨(accessible_congr (used_write _ _ _) _).2 ?_, ?_⟩
    · exact ⟨by omega, by omega, by omega⟩
    · rw [read_write _ hend, if_pos]
      unfold index
      omega
  · rw [used_write] at hhi
    refine load_eq_ok_iff.2 ⟨(accessible_congr (used_write _ _ _) _).2 ?_, ?_⟩
    · exact ⟨hfa, by omega, by omega⟩
    · have hindex : h.words < index a := by
        unfold index
        omega
      rw [read_write _ hend, if_neg (ne_of_gt hindex), read_extend]
      exact h.read_of_words_le (le_of_lt hindex)
  · obtain ⟨hfa, hlo, hhi⟩ := hacc
    rw [load_of_accessible ⟨hfa, hlo, hhi⟩]
    refine load_eq_ok_iff.2 ⟨(accessible_congr (used_write _ _ _) _).2 ?_, ?_⟩
    · exact ⟨hfa, hlo, by omega⟩
    · have hindex : index a < h.words := by
        unfold index
        omega
      rw [read_write _ hend, if_neg (ne_of_lt hindex), read_extend]

/-- The declared arrays that fit into their storage. -/
lemma Sized.arrayAt_iff (hs : h.Sized h' n ref) :
    h'.ArrayAt ref n ↔ 0 ≤ n.toInt ∧ n.toInt < 2 ^ 30 := by
  have hstart := hs.start
  have hstop := hs.stop
  have hsmall := Int32.toInt_lt (requested n)
  constructor
  · intro ha
    have hinside := ha.inside
    exact ⟨ha.nonneg, by omega⟩
  · rintro ⟨hlo, hhi⟩
    refine ⟨hs.length, hlo, ?_⟩
    have hsize := toInt_requested n
    have hpos : 0 < (requested n).toInt := by
      obtain ⟨⟨-, -, hend⟩, -⟩ := load_eq_ok_iff.1 hs.length
      have hfit := Int32.toInt_lt ref
      have hbase : (ref - 4).toInt = h.used := by
        rw [Int32.toInt_sub, hstart, toInt_four, Int.bmod_eq_of_le (by omega) (by omega)]
        omega
      omega
    rw [Int.bmod_def] at hsize
    omega

end

end TreeMachine.Heap

namespace TreeMachine.Structured

def Compile.sizedCode (size base ref reg : String) (x : Expr) : List Stmt :=
  [.move (.temp size) x,
    .move (.temp base) (malloc (times (plus (.temp size) (.const 1)) word)),
    .move (.mem (.temp base)) (.temp size), .move (.temp ref) (plus (.temp base) word),
    .move (.temp reg) (.temp ref)]

/-- Calls of `malloc` are calls of the routine that allocates. -/
structure Allocates (cx : Context) : Prop where
  room : ∀ {size : Int32} {w : World} {addr : Int32}, w.heap.room size = .ok addr →
    cx.call "malloc" [size] w =
      .ok [addr] { w with heap := w.heap.extend size.toInt.toNat }
  full : ∀ {size : Int32} {w : World} {c : Fault}, w.heap.room size = .error c →
    cx.call "malloc" [size] w = .error (.fault c) w

section

variable {cx : Context} {ρ0 ρ : Env} {size base ref reg : String} {x : Expr} {n v : Int32}

def Expr.word (cx : Context) (x : Expr) : Eval Int32 := do
  Eval.take cx.mode.care (← x.eval cx)

lemma eval_move : (Stmt.move (.temp reg) x).eval cx =
    x.word cx >>= fun v => Eval.setRegister reg v := by
  rw [Stmt.eval, Expr.word]
  · rw [bind_assoc]
  · simp

lemma eval_moveTemp (h : x.word cx ρ0 = .ok n ρ) :
    (Stmt.move (.temp reg) x).eval cx ρ0 = .ok () { ρ with regs := ρ.regs.set reg n } := by
  rw [eval_move, bind_ok h]
  rfl

lemma word_temp (h : ρ.regs.get? reg = some v) : (Expr.temp reg).word cx ρ = .ok v ρ := by
  rw [Expr.word, bind_ok (eval_temp h)]
  rfl

lemma eval_moveTemp_error (h : x.word cx ρ0 = .error e ρ) :
    (Stmt.move (.temp reg) x).eval cx ρ0 = .error e ρ := by
  rw [eval_move, bind_error h]

lemma word_reference (h : ρ.regs.get? reg = some v) :
    (Compile.plus (.temp reg) Compile.word).word cx ρ = .ok (v + 4) ρ := by
  rw [Expr.word, bind_ok (eval_reference h)]
  rfl

variable (cx) in
lemma evalAll_requested (h : ρ.regs.get? size = some n) :
    Expr.evalAll cx [Compile.times (Compile.plus (.temp size) (.const 1)) Compile.word] ρ =
      .ok [.value (Heap.requested n)] ρ := by
  simp only [Expr.evalAll, Compile.times, Compile.plus, Compile.word, Expr.eval, Eval.readRegister,
    h, Eval.take, Word.binop, bind, EStateM.bind, pure, EStateM.pure, Heap.requested]

lemma word_malloc :
    (Compile.malloc x).word cx = do
      let vs ← Eval.takeAll cx.mode.care (← Expr.evalAll cx [x])
      return (← Eval.callBy cx.call "malloc" vs).headD 0 := by
  rw [Expr.word, Compile.malloc, Expr.eval]
  simp only [bind_assoc, pure_bind]
  rfl

lemma word_malloc_of_room (A : Allocates cx) (h : Expr.evalAll cx [x] ρ = .ok [.value n] ρ)
    (hroom : ρ.world.heap.room n = .ok addr) :
    (Compile.malloc x).word cx ρ = .ok addr
      { regs := ρ.regs.setAll retReg 1 [addr]
        world := { ρ.world with heap := ρ.world.heap.extend n.toInt.toNat } } := by
  have hcall : Eval.callBy cx.call "malloc" [n] ρ = .ok [addr]
      { regs := ρ.regs.setAll retReg 1 [addr]
        world := { ρ.world with heap := ρ.world.heap.extend n.toInt.toNat } } := by
    rw [Eval.callBy, A.room hroom]
  rw [word_malloc, bind_ok h,
    bind_ok (takeAll_of_words (.cons rfl .nil) ρ), bind_ok hcall]
  rfl

lemma word_malloc_of_full (A : Allocates cx) (h : Expr.evalAll cx [x] ρ = .ok [.value n] ρ)
    (hroom : ρ.world.heap.room n = .error c) :
    (Compile.malloc x).word cx ρ = .error (.fault c) ρ := by
  have hcall : Eval.callBy cx.call "malloc" [n] ρ = .error (.fault c) ρ := by
    rw [Eval.callBy, A.full hroom]
  rw [word_malloc, bind_ok h,
    bind_ok (takeAll_of_words (.cons rfl .nil) ρ), bind_error hcall]

lemma eval_storeWord (hlax : cx.mode.lax = false) (ha : addr.eval cx ρ = .ok o ρ)
    (ho : o.word? = some a) (hx : x.eval cx ρ = .ok o' ρ) (hn : o'.word? = some n)
    (hacc : ρ.world.heap.Accessible a) :
    (Stmt.move (.mem addr) x).eval cx ρ = .ok ()
      { ρ with world := { ρ.world with heap := ρ.world.heap.write (Heap.index a) n } } := by
  have hcheck : Eval.checkTarget x a ρ = .ok () ρ := by
    simp only [Eval.checkTarget, Heap.load_of_accessible hacc]
  rw [eval_store ha ho, storeAt_strict hlax, bind_ok hcheck, bind_ok hx,
    bind_ok (take_of_word hn ρ)]
  simp only [Eval.onWorld, World.store, World.inspect, Heap.locate_of_accessible hacc, bind,
    EStateM.bind]
  rfl

lemma eval_storeTemp_error (hlax : cx.mode.lax = false) (ha : ρ.regs.get? base = some a)
    (hload : ρ.world.heap.load a = .error c) :
    (Stmt.move (.mem (.temp base)) (.temp size)).eval cx ρ = .error (.target c (.temp size)) ρ := by
  have hcheck : Eval.checkTarget (.temp size) a ρ = .error (.target c (.temp size)) ρ := by
    simp only [Eval.checkTarget, hload]
  rw [eval_store (eval_temp ha) rfl, storeAt_strict hlax, bind_error hcheck]

section

variable (A : Allocates cx) (hlax : cx.mode.lax = false) (hne : size ≠ base)
  (hret : ∀ i, size ≠ retReg i) (hx : x.word cx ρ0 = .ok n ρ) (hlimit : ρ.world.heap.limit < 2 ^ 31)

include A hlax hne hret hx hlimit

lemma eval_sizedCode (ha : ρ.world.heap.Affords n) :
    ∃ ρ', (Stmt.seq (Compile.sizedCode size base ref reg x)).eval cx ρ0 = .ok () ρ' ∧
      ρ'.regs.get? reg = some (Int32.ofNat ρ.world.heap.used + 4) ∧
      ρ'.world = { ρ.world with
        heap := (ρ.world.heap.extend (Heap.requested n).toInt.toNat).write
          ρ.world.heap.words n } := by
  have hused := Heap.used_extend_requested ha
  obtain ⟨hpos, hroom⟩ := ha
  have hdvd := Heap.four_dvd_requested n
  have hreserved := ρ.world.heap.reserved
  have hwords := ρ.world.heap.used_eq
  have hbase : (Int32.ofNat ρ.world.heap.used).toInt = ρ.world.heap.used :=
    Int32.toInt_ofNat_of_lt (by omega)
  have hmalloc := word_malloc_of_room (ρ := { ρ with regs := ρ.regs.set size n }) A
    (evalAll_requested cx (Registers.get?_set_self _ _ _))
    (Heap.room_eq_ok_iff.2 ⟨⟨Int.le_of_lt hpos, hdvd, hroom⟩, rfl⟩)
  have hacc : (ρ.world.heap.extend (Heap.requested n).toInt.toNat).Accessible
      (Int32.ofNat ρ.world.heap.used) := by
    exact ⟨by omega, by omega, by omega⟩
  have hindex : Heap.index (Int32.ofNat ρ.world.heap.used) = ρ.world.heap.words := by
    unfold Heap.index
    omega
  have hB := Registers.get?_set_self
    ((ρ.regs.set size n).setAll retReg 1 [Int32.ofNat ρ.world.heap.used]) base
    (Int32.ofNat ρ.world.heap.used)
  have hS : (((ρ.regs.set size n).setAll retReg 1 [Int32.ofNat ρ.world.heap.used]).set base
      (Int32.ofNat ρ.world.heap.used)).get? size = some n := by
    rw [Registers.get?_set_of_ne _ _ hne, Registers.get?_setAll_of_ne _ _ hret,
      Registers.get?_set_self]
  rw [eval_seq, Compile.sizedCode, resume_ok (eval_moveTemp hx), resume_ok (eval_moveTemp hmalloc),
    resume_ok (eval_storeWord hlax (eval_temp hB) rfl (eval_temp hS) rfl hacc),
      resume_ok (eval_moveTemp (word_reference hB)),
    resume_ok (eval_moveTemp (word_temp (Registers.get?_set_self _ _ _))), resume_nil, hindex]
  exact ⟨_, rfl, Registers.get?_set_self _ _ _, rfl⟩

omit hne hret in
lemma eval_sizedCode_error (ha : ¬ρ.world.heap.Affords n) :
    ∃ c ρ', (Stmt.seq (Compile.sizedCode size base ref reg x)).eval cx ρ0 = .error (.fault c) ρ' ∨
      ∃ src, (Stmt.seq (Compile.sizedCode size base ref reg x)).eval cx ρ0 =
        .error (.target c src) ρ' := by
  have hset := evalAll_requested cx (ρ := { ρ with regs := ρ.regs.set size n })
    (Registers.get?_set_self ρ.regs size n)
  rw [eval_seq]
  simp only [Compile.sizedCode]
  rw [resume_ok (eval_moveTemp hx)]
  cases hroom : ρ.world.heap.room (Heap.requested n) with
  | error c =>
    exact ⟨c, _, .inl (resume_stop (eval_moveTemp_error (word_malloc_of_full A hset hroom))
      (List.nil_subset _) trivial)⟩
  | ok addr =>
    -- no byte was asked for, and so there is no place for the length
    obtain ⟨⟨hlo, -, hhi⟩, rfl⟩ := Heap.room_eq_ok_iff.1 hroom
    have hzero : (Heap.requested n).toInt = 0 := by
      unfold Heap.Affords at ha
      omega
    have hmalloc := word_malloc_of_room (ρ := { ρ with regs := ρ.regs.set size n }) A hset hroom
    rw [resume_ok (eval_moveTemp hmalloc)]
    cases hload : (ρ.world.heap.extend (Heap.requested n).toInt.toNat).load
        (Int32.ofNat ρ.world.heap.used) with
    | error c =>
      exact ⟨c, _, .inr ⟨_, resume_stop
        (eval_storeTemp_error hlax (Registers.get?_set_self _ _ _) hload) (List.nil_subset _)
        trivial⟩⟩
    | ok w =>
      obtain ⟨⟨-, -, hend⟩, -⟩ := Heap.load_eq_ok_iff.1 hload
      have hbase : (Int32.ofNat ρ.world.heap.used).toInt = ρ.world.heap.used :=
        Int32.toInt_ofNat_of_lt (by omega)
      have hsame := ρ.world.heap.used_extend (n := 0) ⟨0, rfl⟩ (by omega)
      rw [hzero, Int.toNat_zero] at hend
      omega

end

end

end TreeMachine.Structured

namespace TreeMachine.Machine

open Structured
open Structured.Compile (sizedCode ValueOf)
open Linear

section

variable {M : Setup} {u : CodeUnit} {s : State} {a : Nat} {scopes : List Tree.Scope}
  {trap name : String} {span : Span} {type : Option Tree.Ty} {size : Tree.Expr}
  {elements : List Tree.Expr} {st : Stmt} {c c' : Compiling}

lemma allocates_of_lookup (h : u.lookup "malloc" = none) (fuel : Nat) :
    Allocates (s.context u M fuel) where
  room {size w addr} hroom := by
    refine (call_malloc _ _ _ _ _ h size w).trans ?_
    simp only [World.alloc, World.inspect, hroom, bind, EStateM.bind]
    rfl
  full {size w c} hroom := by
    refine (call_malloc _ _ _ _ _ h size w).trans ?_
    simp only [World.alloc, World.inspect, hroom, bind, EStateM.bind]

lemma of_sized (h : Compile.stmt scopes trap (.array span name type [size] elements) c =
      .ok (some st, c')) :
    ∃ x c1 n n' m reg, ValueOf scopes trap size c x c1 ∧
      st = .seq (sizedCode (numbered "aS" n) (numbered "aB" n') (numbered "aR" m) reg x) := by
  cases Compile.stmtOf_of_stmt trap _ h with
  | array harray hsym =>
    cases harray with
    | sizes hsizes halloc =>
      cases hsizes with
      | cons hx hrest =>
        cases hrest
        cases halloc
        exact ⟨_, _, _, _, _, _, hx, rfl⟩

/-- The declaration of an array with a size `n`. It ends the run just if the heap does not afford
the bytes it asks for, a number that may have wrapped around; otherwise it leaves a reference to
a new block, with the length in the word before it and zeros from there to the end of the block.
The elements that the length promises are in the block just for sizes from zero up to `2 ^ 30`. -/
theorem sized_of_before (hp : Program.ofUnit u = .ok M.program)
    (hconf : ∀ f ∈ u.functions, f.Confined (Callable u)) (hmalloc : u.lookup "malloc" = none)
    (hst : Structured.Compile.stmt scopes trap (.array span name type [size] elements) c =
      .ok (some st, c')) (hbefore : Before M u s (.stmt st) a) (fuel : Nat) :
    ∃ x c1 i j k reg, ValueOf scopes trap size c x c1 ∧ st = .seq (sizedCode i j k reg x) ∧
      ∀ {n ρ}, x.word (s.context u M fuel) s.env = .ok n ρ →
        ρ.world.heap.limit < 2 ^ 31 →
        (¬ρ.world.heap.Affords n → ∃ c, FailsFrom M s c) ∧
        (ρ.world.heap.Affords n → ∃ ρ' t ref,
          Reaches M s (s.stand (a + extent (itemsOf st)) ρ' s.operands t) ∧
          ρ'.regs.get? reg = some ref ∧ ρ.world.heap.Sized ρ'.world.heap n ref ∧
          (ρ'.world.heap.ArrayAt ref n ↔ 0 ≤ n.toInt ∧ n.toInt < 2 ^ 30)) := by
  obtain ⟨x, c1, n, n', m, reg, hx, rfl⟩ := of_sized hst
  refine ⟨x, c1, _, _, _, reg, hx, rfl, fun {v ρ} hv hlimit => ⟨fun ha => ?_, fun ha => ?_⟩⟩
  · obtain ⟨c, ρ', he⟩ := eval_sizedCode_error (allocates_of_lookup hmalloc fuel) rfl hv
      hlimit ha
    exact ⟨c, hbefore.faults hp hconf he⟩
  · have hne : numbered "aS" n ≠ numbered "aB" n' := by
      rw [Ne, numbered_inj]
      simp
    obtain ⟨ρ', he, href, hworld⟩ := eval_sizedCode (allocates_of_lookup hmalloc fuel) rfl
      hne (ne_retReg_numbered _ _) hv hlimit ha
    obtain ⟨t, hreach⟩ := hbefore.passes hp hconf he
    have hsized := Heap.sized_of_affords hlimit ha
    have hheap : ρ'.world.heap = (ρ.world.heap.extend (Heap.requested v).toInt.toNat).write
        ρ.world.heap.words v := by rw [hworld]
    rw [← hheap] at hsized
    exact ⟨ρ', t, _, hreach, href, hsized, hsized.arrayAt_iff⟩

end

/-- The declaration of an array of three elements, in a function that returns the reference. -/
def threeCode : Stmt :=
  .seq (sizedCode "aS.1" "aB.2" "aR.3" "a" (.const 3))

def declaringThree : CodeUnit where
  name := "three"
  functions := [{ name := "main", params := [], body := .seq [threeCode, .ret [.temp "a"]] }]

lemma confined_declaringThree :
    ∀ f ∈ declaringThree.functions, f.Confined (Callable declaringThree) := by
  have hcall : Callable declaringThree "malloc" := .inr (by decide)
  intro f hf
  simp only [declaringThree, List.mem_singleton] at hf
  subst hf
  refine Function.confined_of_seq rfl ?_
  simp [Stmt.ConfinedAll, Stmt.Confined, Expr.ConfinedAll, Expr.Confined, hcall, threeCode,
    sizedCode, Compile.malloc, Compile.times, Compile.plus,
    Compile.word, labelsIn, Stmt.label?, BinOp.defined]

/-- The array of three elements has the words from 8 on, up to 20. -/
theorem sized_of_declaringThree :
    ∃ m s ρ t, ofUnit? (some declaringThree) {} = .ok m ∧ m.start "main" 0 [] = .ok s ∧
      Reaches m.setup s (s.stand 25 ρ s.operands t) ∧ ρ.regs.get? "a" = some 8 ∧
      ρ.world.heap.used = 20 ∧ ρ.world.heap.ArrayAt 8 3 := by
  have hrun : ((ofUnit? (some declaringThree) {}).toOption.bind fun m =>
    (m.start "main" 0 []).toOption.map fun s =>
      decide (m.setup.program.entry "main" = some ⟨"main", 0, 28⟩ ∧
        s.frame.fn = ⟨"main", 0, 28⟩ ∧ s.frame.ip = 0 ∧ s.world.heap.used = 4 ∧
        s.world.heap.limit = 33554432)) = some true := by
    decide +kernel
  obtain ⟨m, hm, hrun⟩ := Except.bind_eq_some.1 hrun
  obtain ⟨s, hs, hrun⟩ := Except.map_eq_some.1 hrun
  obtain ⟨hentry, hfn, hip, hused, hlimit⟩ := of_decide_eq_true hrun
  have hp := program_of_ofUnit? hm
  have hmem : declaringThree.functions[0] ∈ declaringThree.functions := List.getElem_mem _
  have hh := holds_of_entry hm hmem hentry
  have hstart : s.frame.fn.start = 0 := by rw [hfn]
  have hbefore : Before m.setup declaringThree s (.stmt threeCode) 0 := by
    refine ⟨⟨_, hmem, hfn ▸ hh, ?_, by simp [declaringThree, threeCode, sizedCode]⟩, hip, ?_⟩
    · rw [hstart]
      exact .part [] _ rfl (.self _ 0)
    · rw [hstart]
      omega
  have hst : Compile.stmt [{ symbols := [{ id := 1, name := "a", kind := .variable }] }]
      "" (.array {} "a" none [.int {} 3] []) {} =
        .ok (some threeCode, Compile.declared { temps := 3 }
          { id := 1, name := "a", kind := .variable }) := rfl
  obtain ⟨x, -, i, j, k, reg, -, hcode, hsized⟩ :=
    sized_of_before hp confined_declaringThree rfl hst hbefore 10
  obtain ⟨rfl, rfl⟩ : x = .const 3 ∧ reg = "a" := by
    cases hcode
    exact ⟨rfl, rfl⟩
  have hused : s.env.world.heap.used = 4 := hused
  have hsmall : s.env.world.heap.limit < 2 ^ 31 := by
    rw [show s.env.world.heap.limit = 33554432 from hlimit]
    decide
  have hrequested : (Heap.requested 3).toInt = 16 := by decide
  have haffords : s.env.world.heap.Affords 3 := by
    refine ⟨by omega, ?_⟩
    rw [show s.env.world.heap.limit = 33554432 from hlimit]
    omega
  obtain ⟨-, hok⟩ := hsized (n := 3) rfl hsmall
  obtain ⟨ρ, t, ref, hreach, href, hstored, hfits⟩ := hok haffords
  obtain rfl : ref = 8 := Int32.toInt_inj.1 (by rw [hstored.start, hused]; rfl)
  have hend := hstored.stop
  refine ⟨m, s, ρ, t, hm, hs, hreach, href, ?_, hfits.2 (by decide)⟩
  omega

/-- A program whose `main` declares an array of a given size and returns its length. -/
def measuring : Tree.Program where
  name := "measuring"
  functions := [{
    name := "main"
    params := [{ name := "n", type := some .int }]
    returns := [.int]
    body := some {
      stmts := [
        .array {} "a" (some (.array .int)) [.ident { name := "n" }] [],
        .ret {} [.call {} none "lengthInt" [.ident { name := "a" }]]] } }]

/-- A size of `2 ^ 30` is accepted. The array has that length, and no element of it exists: four
bytes were reserved for it. -/
theorem sized_beyond_storage :
    ∃ q u m m', measuring.resolve = .ok q ∧ CodeUnit.ofTree q = .ok u ∧
      ofUnit? (some u) {} = .ok m ∧
      m.callAll 100 "main" [1073741824] = some (.ok [1073741824], m') ∧
      m.world.heap.used = 4 ∧ m'.world.heap.used = 8 := by
  have hrun : (measuring.resolve.toOption.bind fun q =>
    (CodeUnit.ofTree q).toOption.bind fun u =>
    (ofUnit? (some u) {}).toOption.bind fun m =>
    (m.callAll 100 "main" [1073741824]).map fun r =>
      decide (r.1.toOption = some [1073741824] ∧ m.world.heap.used = 4 ∧
        r.2.world.heap.used = 8)) = some true := by
    decide +kernel
  simp only [Except.bind_eq_some] at hrun
  obtain ⟨q, hq, u, hu, m, hm, hrun⟩ := hrun
  obtain ⟨⟨r, m'⟩, hcall, hrun⟩ := Option.map_eq_some_iff.1 hrun
  obtain ⟨hr, hbefore, hafter⟩ := of_decide_eq_true hrun
  obtain rfl := Except.eq_ok_of_toOption hr
  exact ⟨q, u, m, m', hq, hu, hm, hcall, hbefore, hafter⟩

end TreeMachine.Machine
