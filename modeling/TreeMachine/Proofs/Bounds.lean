import TreeMachine.Proofs.Growth
import TreeMachine.Proofs.Places
import TreeMachine.Proofs.Simulation

/-!
# The check of an index

Before an element of an array is read or assigned, its index is compared with the length word as
an unsigned number. One comparison is enough: no index that is negative, taken as unsigned, is
below a length that is not. A run that passes the comparison goes on behind it, and the
element's address does not wrap around. Any other run gets to the trap of its function, with the
heap it had when the index was computed, and calls what ends it.
-/

open List

namespace TreeMachine.Heap

/-- A reference to an array of a length, all of whose words exist. -/
structure ArrayAt (h : Heap) (ref n : Int32) : Prop where
  length : h.load (ref - 4) = .ok n
  nonneg : 0 ≤ n.toInt
  inside : ref.toInt + 4 * n.toInt ≤ h.used

/-- If the limit is the address of a word, all that is in use is. -/
lemma used_lt (h : Heap) (hlimit : h.limit < 2 ^ 31) : (h.used : Int) < 2 ^ 31 := by
  have hwithin := h.within
  omega

lemma toNat_toUInt32 (k : Int32) :
    (k.toUInt32.toNat : Int) = if 0 ≤ k.toInt then k.toInt else k.toInt + 2 ^ 32 := by
  have hint : k.toInt = k.toBitVec.toInt := rfl
  have hnat : k.toUInt32.toNat = k.toBitVec.toNat := rfl
  rw [hint, hnat, BitVec.toInt_eq_toNat_cond]
  split <;> split <;> omega

/-- An index is below a length as unsigned numbers just if it is one of the array's. -/
lemma toUInt32_lt_iff {k n : Int32} (hn : 0 ≤ n.toInt) :
    k.toUInt32 < n.toUInt32 ↔ 0 ≤ k.toInt ∧ k.toInt < n.toInt := by
  have hk := toNat_toUInt32 k
  have hn' := toNat_toUInt32 n
  have hlo := Int32.le_toInt k
  have hhi := Int32.toInt_lt n
  rw [UInt32.lt_iff_toNat_lt]
  rw [if_pos hn] at hn'
  split at hk <;> omega

lemma toInt_four : (4 : Int32).toInt = 4 := rfl

section

variable {h : Heap} {ref n k : Int32}

lemma ArrayAt.aligned (ha : h.ArrayAt ref n) (hb : (h.used : Int) < 2 ^ 31) : 4 ∣ ref.toInt ∧
    8 ≤ ref.toInt := by
  obtain ⟨⟨hdvd, hlo, hhi⟩, -⟩ := load_eq_ok_iff.1 ha.length
  have hcancel : (ref - 4) + 4 = ref := by simp
  have href : ref.toInt = (ref - 4).toInt + 4 := by
    have hsum := congrArg Int32.toInt hcancel
    rw [Int32.toInt_add, toInt_four, Int.bmod_eq_of_le (by omega) (by omega)] at hsum
    exact hsum.symm
  omega

/-- The elements of an array exist, at the addresses that code computes. -/
lemma ArrayAt.element (ha : h.ArrayAt ref n) (hb : (h.used : Int) < 2 ^ 31)
    (hk : 0 ≤ k.toInt ∧ k.toInt < n.toInt) :
    (ref + 4 * k).toInt = ref.toInt + 4 * k.toInt ∧ h.Accessible (ref + 4 * k) := by
  obtain ⟨hdvd, hlo⟩ := ha.aligned hb
  have hinside := ha.inside
  have hprod : (4 * k).toInt = 4 * k.toInt := by
    rw [Int32.toInt_mul, toInt_four, Int.bmod_eq_of_le (by omega) (by omega)]
  have haddr : (ref + 4 * k).toInt = ref.toInt + 4 * k.toInt := by
    rw [Int32.toInt_add, hprod, Int.bmod_eq_of_le (by omega) (by omega)]
  exact ⟨haddr, by omega, by omega, by omega⟩

end

end TreeMachine.Heap

namespace TreeMachine.Structured

open Compile

/-- The jump of a check whose array and index are in registers, and the label behind it. -/
def Compile.compared (A I yes no : String) : List Stmt :=
  [.cjump (.binop .ult (.temp I) (.mem (.binop .sub (.temp A) word))) yes no, .label yes]

end TreeMachine.Structured

namespace TreeMachine.Machine

open Structured
open Structured.Compile
open Linear

/-! ### Running the check -/

/-- The frame of a state, while it is between two addresses. -/
def Between (s : State) (lo hi : Nat) (s' : State) : Prop :=
  ∃ a ρ S t, lo ≤ a ∧ a < hi ∧ s' = s.stand a ρ S t

section

variable {M : Setup} {s : State} {ρ : Env} {S : Operands} {t : List Called}
  {A I yes no : String} {c b : Nat} {ref k n : Int32}

lemma steps_compared (hlo : s.frame.fn.start ≤ c) (hhi : c + 7 ≤ s.frame.fn.stop)
    (hp : Placed M.program c (itemsOfAll (compared A I yes no)))
    (hA : ρ.regs.get? A = some ref) (hI : ρ.regs.get? I = some k)
    (hn : ρ.world.heap.load (ref - 4) = .ok n)
    (hb : M.program.labels[if k.toUInt32 < n.toUInt32 then yes else no]? = some b) :
    Steps M (Between s c (c + 7)) 7 (s.stand c ρ S t) (s.stand b ρ S t) := by
  obtain ⟨h0, h1, h2, h3, h4, h5, h6, -⟩ := hp
  have hq : ∀ j S, j < 7 → Between s c (c + 7) (s.stand (c + j) ρ S t) := fun j S hj =>
    ⟨c + j, ρ, S, t, by omega, by omega, rfl⟩
  have htakeA : Eval.take .fills (.reg A (some ref)) ρ = .ok ref ρ := rfl
  have htake4 : Eval.take .fills (.value 4) ρ = .ok 4 ρ := rfl
  have htakeAddr : Eval.take .fills (.value (ref - 4)) ρ = .ok (ref - 4) ρ := rfl
  have htakeI : Eval.take .fills (.reg I (some k)) ρ = .ok k ρ := rfl
  have htakeLen : Eval.take .fills (.mem (ref - 4) n) ρ = .ok n ρ := rfl
  have htakeCmp : Eval.take .fills (.value (Word.ofBool (k.toUInt32 < n.toUInt32))) ρ =
      .ok (Word.ofBool (k.toUInt32 < n.toUInt32)) ρ := rfl
  have hsub : Word.binop .sub ref 4 = .ok (ref - 4) := rfl
  have hult : Word.binop .ult k n = .ok (Word.ofBool (k.toUInt32 < n.toUInt32)) := rfl
  have hgoto : M.program.labels[if Word.ofBool (k.toUInt32 < n.toUInt32) ≠ 0 then yes else no]? =
      some b := by
    by_cases hlt : k.toUInt32 < n.toUInt32
    · simpa [hlt, Word.ofBool] using hb
    · simpa [hlt, Word.ofBool] using hb
  -- the index
  refine .head (hq 0 _ (by omega)) (step_next hlo (by omega) h0 (exec_temp I)) ?_
  -- the address of the length
  refine .head (hq 1 _ (by omega)) (step_next (by omega) (by omega) h1 (exec_temp A)) ?_
  refine .head (hq 2 _ (by omega)) (step_next (by omega) (by omega) h2 exec_const) ?_
  rw [hA, hI]
  have hdiff := exec_binop (p := M.program) (s := s) (a := c + 1 + 1 + 1)
    (S := S.push (.reg I (some k))) (t := t) (x := .temp A) (y := word) .sub htakeA htake4
  rw [hsub] at hdiff
  refine .head (hq 3 _ (by omega)) (step_next (by omega) (by omega) h3 hdiff) ?_
  -- the length
  have hload := exec_mem (p := M.program) (s := s) (a := c + 1 + 1 + 1 + 1)
    (S := S.push (.reg I (some k))) (t := t) (x := .binop .sub (.temp A) word) htakeAddr
  rw [hn] at hload
  refine .head (hq 4 _ (by omega)) (step_next (by omega) (by omega) h4 hload) ?_
  have hcmp := exec_binop (p := M.program) (s := s) (a := c + 1 + 1 + 1 + 1 + 1) (S := S) (t := t)
    (x := .temp I) (y := .mem (.binop .sub (.temp A) word)) .ult htakeI htakeLen
  rw [hult] at hcmp
  refine .head (hq 5 _ (by omega)) (step_next (by omega) (by omega) h5 hcmp) ?_
  refine .head (hq 6 _ (by omega)) (step_goto (by omega) (by omega) h6 ?_) (.refl _)
  exact exec_cjump htakeCmp hgoto

/-- The trap of a function: what reports an index is called at its label. -/
structure TrapAt (M : Setup) (r : Range) (b : Nat) : Prop where
  label : M.program.labels[trapOf r.name]? = some b
  start_le : r.start ≤ b
  lt_stop : b + 1 < r.stop
  name : M.program.code[b]? = some (.expr (.name "_outOfBounds"))
  call : ∃ node, M.program.code[b + 1]? = some node ∧ IsCall node "_outOfBounds" 0

lemma TrapAt.comes (h : TrapAt M s.frame.fn b) : Steps M (Between s b (b + 2)) 1 (s.stand b ρ S t)
      (s.stand (b + 1) ρ (S.push (.symbol "_outOfBounds" M.program.labels["_outOfBounds"]?))
        t) := by
  have hhi := h.lt_stop
  exact .head ⟨b, ρ, S, t, le_rfl, by omega, rfl⟩
    (step_next h.start_le (by omega) h.name (exec_name _)) (.refl _)

lemma TrapAt.fails (h : TrapAt M s.frame.fn b)
    (hroutine : M.program.labels["_outOfBounds"]? = none) :
    step M (s.stand (b + 1) ρ (S.push (.symbol "_outOfBounds" M.program.labels["_outOfBounds"]?))
      t) =
      .error (.indexOutOfBounds s.frame.fn.name) (s.stand (b + 1) ρ S t) := by
  obtain ⟨node, hnode, hcall⟩ := h.call
  have hlo := h.start_le
  have hargs : Eval.takeAll .fills [] ρ = .ok [] ρ := rfl
  have hr : Routine.ofName? "_outOfBounds" = some .outOfBounds := by decide
  exact step_call_routine (S := S) (t := t) (by omega) h.lt_stop hnode hcall hargs hroutine hr

end

/-! ### Where a run stands -/

section

variable {u : CodeUnit} {M : Setup} {s0 s : State} (hp : Program.ofUnit u = .ok M.program)
  (hconf : ∀ f ∈ u.functions, f.Confined (Callable u))

include hp hconf

lemma level_of_reaches (h0 : Started M u s0) (hs : Reaches M s0 s) {a c : Nat} {n : Node}
    (hip : s.frame.ip = a) (hac : a ≤ c) (hc : c < s.frame.fn.stop)
    (hn : M.program.code[c]? = some n) (hj : IsJump n) :
    Level M.program (s.cleared M.program a) (s.cleared M.program a).operands a s.operands := by
  obtain ⟨hproper, -⟩ := proper_of_reaches hp hconf h0 hs
  obtain ⟨junk, hheight, hjunk⟩ := hproper.level
  have hbase := hproper.base_le
  rw [hip, Int.toNat_natCast] at hheight hjunk
  have hzero : junk = 0 := by
    refine hjunk.resolve_right ?_
    rintro ⟨b, -, hb, hcalm⟩
    exact hcalm (by omega) hc hn hj
  refine ⟨drop_suffix _ _, ?_⟩
  show (s.operands.height : Int) =
    (s.operands.height - (M.program.level a - M.program.level s.frame.fn.start).toNat : Nat) +
      (M.program.level a - M.program.level s.frame.fn.start)
  omega

end

section

variable (sc : Scene M (fun _ => True) cx ok s G lo) (hconf : Stmt.ConfinedAll ok esc scope ss)
  (hlab : ∀ l ∈ esc ++ scope, (M.program.labels[l]?).isSome) (hdis : ∀ l ∈ labelsIn ss, l ∉ esc)
  (hs : Site M.program s lo a (itemsOfAll ss)) (hl : Level M.program s G a S)

include sc hconf hlab hdis hs hl

lemma reaches_list (he : (Stmt.seq ss).eval cx ρ = .ok () ρ') :
    ∃ t', Reaches M (s.stand a ρ S t) (s.stand (a + extent (itemsOfAll ss)) ρ' S t') := by
  obtain ⟨hesc, hscope⟩ := forall_mem_append.1 hlab
  obtain ⟨k, s', hrun, hm⟩ := Scene.list (ρ := ρ) (t := t) hdis
    (follows_stmts sc hesc ss hconf hscope) hs hl
  rw [he] at hm
  obtain ⟨t', rfl⟩ := hm
  exact ⟨t', k, hrun⟩

lemma fails_list (he : (Stmt.seq ss).eval cx ρ = .error (.fault c) ρ' ∨
      ∃ src, (Stmt.seq ss).eval cx ρ = .error (.target c src) ρ') :
    FailsFrom M (s.stand a ρ S t) c := by
  obtain ⟨hesc, hscope⟩ := forall_mem_append.1 hlab
  exact .of_lands (Scene.list (ρ := ρ) (t := t) hdis (follows_stmts sc hesc ss hconf hscope) hs hl)
    he

end

/-! ### The check where it stands -/

/-- The code of a check stands in a function: the statements that put array and index into
registers, and the jump. -/
structure CheckAt (M : Setup) (ok : String → Prop) (r : Range) (A I yes : String)
    (sa si : List Stmt) (lo : Nat) (esc scope : List String) : Prop where
  placed : Placed M.program lo (itemsOfAll (sa ++ si ++ compared A I yes (trapOf r.name)))
  start_le : r.start ≤ lo
  le_stop : lo + extent (itemsOfAll (sa ++ si ++ compared A I yes (trapOf r.name))) ≤ r.stop
  confined : Stmt.ConfinedAll ok esc scope (sa ++ si)
  labels : ∀ l ∈ esc ++ scope, (M.program.labels[l]?).isSome
  disjoint : ∀ l ∈ labelsIn (sa ++ si), l ∉ esc
  keeps : A ∉ Stmt.movedAll si
  ne_result : ∀ i, A ≠ retReg i
  trap : ∃ b, TrapAt M r b

lemma extent_compared (A I yes no : String) : extent (itemsOfAll (compared A I yes no)) = 7 := rfl

/-- The array has been evaluated to a reference, and the index after it. -/
def Indexes (cx : Context) (A I : String) (sa si : List Stmt) (ρ : Env) (ref k : Int32) (ρ' : Env) :
    Prop :=
  ∃ ρ1, (Stmt.seq sa).eval cx ρ = .ok () ρ1 ∧ ρ1.regs.get? A = some ref ∧
    (Stmt.seq si).eval cx ρ1 = .ok () ρ' ∧ ρ'.regs.get? I = some k

/-- So they have, and the array is there with all its words. -/
def Evaluates (cx : Context) (A I : String) (sa si : List Stmt) (ρ : Env) (ref n k : Int32)
    (ρ' : Env) : Prop :=
  ∃ ρ1, (Stmt.seq sa).eval cx ρ = .ok () ρ1 ∧ ρ1.regs.get? A = some ref ∧
    (Stmt.seq si).eval cx ρ1 = .ok () ρ' ∧ ρ'.regs.get? I = some k ∧
    ρ'.world.heap.ArrayAt ref n

lemma Evaluates.indexes (h : Evaluates cx A I sa si ρ ref n k ρ') :
    Indexes cx A I sa si ρ ref k ρ' := by
  obtain ⟨ρ1, ha, hA, hi, hI, -⟩ := h
  exact ⟨ρ1, ha, hA, hi, hI⟩

lemma Evaluates.arrayAt (h : Evaluates cx A I sa si ρ ref n k ρ') :
    ρ'.world.heap.ArrayAt ref n := by
  obtain ⟨-, -, -, -, -, harray⟩ := h
  exact harray

/-- The run gets from where the index has been computed, at the address `c`, to the call in the
trap, at `b + 1`. It does nothing on the way but look at the length. -/
structure Traps (M : Setup) (s : State) (c : Nat) (ρ : Env) (t : List Called) (b : Nat) : Prop where
  trap : TrapAt M s.frame.fn b
  reaches : Reaches M s (s.stand c ρ s.operands t)
  path : Path M (fun s' => Between s c (c + 7) s' ∨ Between s b (b + 2) s')
    (s.stand c ρ s.operands t) (s.stand (b + 1) ρ
      (s.operands.push (.symbol "_outOfBounds" M.program.labels["_outOfBounds"]?)) t)

/-- From where the index has been computed, at the address `c`, the run fails in the trap. It has
done nothing on the way but look at the length, and the world is as it was. -/
def Refuses (M : Setup) (s : State) (c : Nat) (ρ : Env) : Prop :=
  ∃ t b s1 s2, Reaches M s (s.stand c ρ s.operands t) ∧
    M.program.labels[trapOf s.frame.fn.name]? = some b ∧
    Path M (fun s' => Between s c (c + 7) s' ∨ Between s b (b + 2) s')
      (s.stand c ρ s.operands t) s1 ∧
    step M s1 = .error (.indexOutOfBounds s.frame.fn.name) s2 ∧ s2.world = ρ.world

section

variable {M : Setup} {ok : String → Prop} {r : Range} {A I yes : String} {sa si : List Stmt}
  {lo : Nat} {esc scope : List String} (h : CheckAt M ok r A I yes sa si lo esc scope)

include h

lemma CheckAt.jump : Placed M.program (lo + extent (itemsOfAll (sa ++ si)))
    (itemsOfAll (compared A I yes (trapOf r.name))) := by
  have hplaced := h.placed
  rw [itemsOfAll_append] at hplaced
  exact hplaced.append.2

lemma CheckAt.jump_le : lo + extent (itemsOfAll (sa ++ si)) + 7 ≤ r.stop := by
  have hstop := h.le_stop
  rwa [itemsOfAll_append, extent_append, extent_compared, ← add_assoc] at hstop

lemma CheckAt.label : M.program.labels[yes]? = some (lo + extent (itemsOfAll (sa ++ si)) + 7) := by
  obtain ⟨-, -, -, -, -, -, -, hlabel, -⟩ := h.jump
  exact hlabel

end

section

variable {u : CodeUnit} {M : Setup} {s0 s : State} {A I yes : String} {sa si : List Stmt} {lo : Nat}
  {esc scope : List String} {fuel : Nat} {ρ : Env} {ref n k : Int32}
  (hp : Program.ofUnit u = .ok M.program) (hconf : ∀ f ∈ u.functions, f.Confined (Callable u))
  (h0 : Started M u s0) (hs : Reaches M s0 s)
  (h : CheckAt M (Callable u) s.frame.fn A I yes sa si lo esc scope) (hip : s.frame.ip = lo)
  (he : Indexes (s.context u M fuel) A I sa si s.env ref k ρ)

include hp hconf h0 hs h hip

lemma CheckAt.level :
    Level M.program (s.cleared M.program lo) (s.cleared M.program lo).operands lo s.operands := by
  obtain ⟨-, -, -, -, -, -, hjump, -⟩ := h.jump
  have hstop := h.jump_le
  exact level_of_reaches hp hconf h0 hs hip (by omega) (by omega) hjump (.inr ⟨_, _, _, rfl⟩)

include he

lemma CheckAt.computes : ρ.regs.get? A = some ref ∧
    ∃ t, Reaches M s (s.stand (lo + extent (itemsOfAll (sa ++ si))) ρ s.operands t) := by
  obtain ⟨ρ1, ha, hA, hi, -⟩ := he
  have hkeep : Eval.Along (Holds A) ((Stmt.seq si).eval (s.context u M fuel)) :=
    holds_stmt h.ne_result h.keeps
  have hkept := hkeep ρ1 ref hA
  rw [hi] at hkept
  refine ⟨hkept, ?_⟩
  have sc := scene_of_unit (a := lo) hp hconf s fuel h.start_le
  have hl := h.level hp hconf h0 hs hip
  have hstop := h.jump_le
  have hplaced := h.placed
  rw [itemsOfAll_append] at hplaced
  have hsite : Site M.program (s.cleared M.program lo) lo lo (itemsOfAll sa ++ itemsOfAll si) := by
    rw [← itemsOfAll_append]
    exact ⟨hplaced.append.1, le_rfl, by show _ ≤ s.frame.fn.stop; omega⟩
  obtain ⟨hsa, hsi⟩ := hsite.append
  have hconfined := Stmt.confinedAll_iff.1 h.confined
  have hdisjoint := h.disjoint
  rw [labelsIn_append] at hdisjoint
  obtain ⟨hda, hdi⟩ := forall_mem_append.1 hdisjoint
  obtain ⟨t1, hrun1⟩ := reaches_list (t := s.trace) sc
    (Stmt.confinedAll_iff.2 fun st hst => hconfined st (mem_append_left _ hst)) h.labels hda
    hsa hl ha
  obtain ⟨t2, hrun2⟩ := reaches_list (t := t1) sc
    (Stmt.confinedAll_iff.2 fun st hst => hconfined st (mem_append_right _ hst)) h.labels hdi
    hsi (hl.stmts hsa.placed) hi
  refine ⟨t2, ?_⟩
  rw [itemsOfAll_append, extent_append, ← add_assoc]
  have hself : (s.cleared M.program lo).stand lo s.env s.operands s.trace = s := State.stand_env hip
  rw [hself] at hrun1
  exact hrun1.trans hrun2

/-- An index below the length passes the check. -/
lemma CheckAt.passes (hn : ρ.world.heap.load (ref - 4) = .ok n) (hk : k.toUInt32 < n.toUInt32) :
    ∃ t, Reaches M s (s.stand (lo + extent (itemsOfAll (sa ++ si)) + 7) ρ s.operands t) := by
  obtain ⟨hA, t, hrun⟩ := h.computes hp hconf h0 hs hip he
  obtain ⟨-, -, -, -, hI⟩ := he
  have hlabel : M.program.labels[if k.toUInt32 < n.toUInt32 then yes
      else trapOf s.frame.fn.name]? = some (lo + extent (itemsOfAll (sa ++ si)) + 7) := by
    rw [if_pos hk]
    exact h.label
  have hsteps := steps_compared (S := s.operands) (t := t) (le_trans h.start_le (by omega))
    h.jump_le h.jump hA hI hn hlabel
  exact ⟨t, hrun.trans (Path.reaches ⟨7, hsteps⟩)⟩

/-- Any other index gets the run to the trap. -/
lemma CheckAt.traps (hn : ρ.world.heap.load (ref - 4) = .ok n) (hk : ¬k.toUInt32 < n.toUInt32) :
    ∃ t b, Traps M s (lo + extent (itemsOfAll (sa ++ si))) ρ t b := by
  obtain ⟨hA, t, hrun⟩ := h.computes hp hconf h0 hs hip he
  obtain ⟨-, -, -, -, hI⟩ := he
  obtain ⟨b, htrap⟩ := h.trap
  have hlabel : M.program.labels[if k.toUInt32 < n.toUInt32 then yes
      else trapOf s.frame.fn.name]? = some b := by
    rw [if_neg hk]
    exact htrap.label
  have hsteps := steps_compared (S := s.operands) (t := t) (le_trans h.start_le (by omega))
    h.jump_le h.jump hA hI hn hlabel
  exact ⟨t, b, htrap, hrun,
    Path.trans ⟨7, hsteps.imp fun _ => .inl⟩ ⟨1, htrap.comes.imp fun _ => .inr⟩⟩

end

/-- In the trap an index is refused if the library is called there. -/
lemma Traps.refuses (h : Traps M s c ρ t b)
    (hroutine : M.program.labels["_outOfBounds"]? = none) : Refuses M s c ρ :=
  ⟨t, b, _, _, h.reaches, h.trap.label, h.path, h.trap.fails hroutine, rfl⟩

end TreeMachine.Machine
