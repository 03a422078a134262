import Mathlib
import TreeMachine.Machine.Library
import TreeMachine.Machine.Word

/-!
# Faults that are to be expected

Some faults report what a program does: a division by zero, an index out of bounds, a heap
that is full. Others would mean that code is broken: a name that nothing defines, an address
outside the program, an operand of the wrong kind. The library routines and the operators
only give faults of the first sort, with one exception: a routine that is called with too
few arguments complains about an operand.
-/

namespace TreeMachine

/-- The fault says nothing about broken code. A fault about an operand is the fault of a
routine that was called without arguments. -/
def Fault.Expected : Fault → Prop
  | .badInstruction _ => False
  | .unresolvedName _ => False
  | .operandTag operation got =>
    ∃ (r : Routine) (caller : String) (w w' : World),
      r.run caller [] w = .error (.operandTag operation got) w'
  | _ => True

/-- The fault says nothing about broken code, and is neither about an operand nor about the
depth of calls. -/
def Fault.Plain : Fault → Prop
  | .badInstruction _ => False
  | .unresolvedName _ => False
  | .operandTag _ _ => False
  | .callDepthExceeded _ => False
  | _ => True

def Fault.Shallow (c : Fault) : Prop :=
  ∀ depth, c ≠ .callDepthExceeded depth

lemma Fault.Plain.expected {c : Fault} (h : c.Plain) : c.Expected := by
  cases c <;> trivial

lemma Fault.Plain.shallow {c : Fault} (h : c.Plain) : c.Shallow := by
  rintro depth rfl
  exact h

/-! ### The heap -/

lemma Heap.plain_of_locate {h : Heap} {c : Fault} (he : h.locate addr operation = .error c) :
    c.Plain := by
  unfold Heap.locate at he
  split_ifs at he <;> cases he <;> trivial

lemma Heap.plain_of_load {h : Heap} {c : Fault} (he : h.load addr = .error c) : c.Plain := by
  unfold Heap.load at he
  cases hl : h.locate addr "load" with
  | ok i => rw [hl] at he; cases he
  | error c' => rw [hl] at he; cases he; exact Heap.plain_of_locate hl

lemma Heap.plain_of_room {h : Heap} {c : Fault} (he : h.room size = .error c) : c.Plain := by
  unfold Heap.room at he
  split_ifs at he <;> cases he <;> trivial

lemma Heap.plain_of_mapM_load {h : Heap} {is : List Nat} {c : Fault}
    (he : is.mapM (fun i => h.load (ref + Int32.ofNat i * 4)) = .error c) : c.Plain := by
  induction is with
  | nil => cases he
  | cons i is ih =>
    rw [List.mapM_cons] at he
    cases hl : h.load (ref + Int32.ofNat i * 4) with
    | error c' => rw [hl] at he; cases he; exact Heap.plain_of_load hl
    | ok v =>
      rw [hl] at he
      cases hr : is.mapM (fun i => h.load (ref + Int32.ofNat i * 4)) with
      | error c' =>
        simp only [hr, bind, Except.bind] at he
        cases he
        exact ih hr
      | ok vs => simp only [hr, bind, Except.bind] at he; cases he

lemma Heap.plain_of_array {h : Heap} {c : Fault} (he : h.array ref = .error c) : c.Plain := by
  unfold Heap.array at he
  cases hn : h.arrayLength ref with
  | error c' => rw [hn] at he; cases he; exact Heap.plain_of_load hn
  | ok n =>
    simp only [hn, bind, Except.bind] at he
    split at he
    · cases he; trivial
    · split at he
      · cases he; trivial
      · exact Heap.plain_of_mapM_load he

/-! ### Actions -/

def Act.Faults {α : Type} (P : Fault → Prop) (a : Act α) : Prop :=
  ∀ w c w', a w = .error c w' → P c

namespace Act.Faults

variable {α : Type} {P : Fault → Prop}

lemma bind (ha : Act.Faults P a) (hf : ∀ x, Act.Faults P (f x)) : Act.Faults P (a >>= f) := by
  intro w c w' h
  change EStateM.bind a f w = .error c w' at h
  unfold EStateM.bind at h
  split at h
  · exact hf _ _ _ _ h
  · next he => cases h; exact ha _ _ _ he

lemma pure (x : α) : Act.Faults P (Pure.pure x : Act α) := fun _ _ _ h => by cases h

lemma modify (f : World → World) : Act.Faults P (modify f : Act PUnit) :=
  fun _ _ _ h => by cases h

lemma inspect {f : Heap → Except Fault α} (hf : ∀ {h c}, f h = .error c → P c) :
    Act.Faults P (World.inspect f) := by
  intro w c w' h
  unfold World.inspect at h
  split at h
  · cases h
  · next he => cases h; exact hf he

end Act.Faults

open Act

lemma World.plain_store (addr v : Int32) : Faults Fault.Plain (World.store addr v) :=
  (Faults.inspect Heap.plain_of_locate).bind fun _ => Faults.modify _

lemma World.plain_alloc (size : Int32) : Faults Fault.Plain (World.alloc size) :=
  (Faults.inspect Heap.plain_of_room).bind fun _ => (Faults.modify _).bind fun _ => Faults.pure _

lemma World.plain_newArray (xs : List Int32) : Faults Fault.Plain (World.newArray xs) :=
  (Faults.inspect Heap.plain_of_room).bind fun _ => (Faults.modify _).bind fun _ => Faults.pure _

lemma World.plain_checkOutput (operation : String) :
    Faults Fault.Plain (World.checkOutput operation) := by
  intro w c w' h
  unfold World.checkOutput at h
  split at h <;> cases h
  trivial

lemma World.plain_write (operation : String) (bytes : ByteArray) :
    Faults Fault.Plain (World.write operation bytes) :=
  (Faults.modify _).bind fun _ => World.plain_checkOutput operation

lemma World.plain_flush : Faults Fault.Plain World.flush :=
  (Faults.modify _).bind fun _ => World.plain_checkOutput _

lemma World.plain_read {α : Type} (operation : String)
    (f : Input → Except String α × Input) : Faults Fault.Plain (World.read operation f) := by
  refine World.plain_flush.bind fun _ w c w' h => ?_
  rcases hf : f w.input with ⟨_ | a, input⟩ <;> simp only [hf] at h <;> cases h
  trivial

lemma World.plain_readText (ref : Int32) : Faults Fault.Plain (World.readText ref) :=
  (Faults.inspect Heap.plain_of_array).bind fun _ => Faults.pure _

/-! ### Routines -/

namespace Routine

lemma plain_print (v : Int32) (vs : List Int32) : Faults Fault.Plain (runPrint (v :: vs)) :=
  (Faults.pure v).bind fun _ => (World.plain_readText _).bind fun _ => World.plain_write _ _

lemma plain_run (caller : String) (v : Int32) (vs : List Int32) (r : Routine) :
    Faults Fault.Plain (r.run caller (v :: vs)) := by
  cases r with
  | outOfBounds => intro w c w' h; cases h; trivial
  | assert =>
    refine (Faults.pure v).bind fun u => ?_
    by_cases hu : u = 0
    · simp only [hu, if_true]
      refine Faults.bind (fun _ _ _ h => ?_) fun _ => Faults.pure _
      cases h
      trivial
    · simp only [hu, if_false]
      exact (Faults.pure _).bind fun _ => Faults.pure _
  | eof => exact (World.plain_read _ _).bind fun _ => Faults.pure _
  | getchar =>
    refine (World.plain_read _ _).bind fun o => ?_
    cases o <;> exact Faults.pure _
  | lengthBool | lengthInt =>
    exact (Faults.pure v).bind fun _ =>
      (Faults.inspect fun h => Heap.plain_of_load h).bind fun _ => Faults.pure _
  | malloc =>
    exact (Faults.pure v).bind fun _ => (World.plain_alloc _).bind fun _ => Faults.pure _
  | parseInt =>
    exact (Faults.pure v).bind fun _ => (World.plain_readText _).bind fun _ => Faults.pure _
  | print => exact (plain_print v vs).bind fun _ => Faults.pure _
  | println =>
    exact (plain_print v vs).bind fun _ => (World.plain_write _ _).bind fun _ => Faults.pure _
  | readln =>
    exact (World.plain_read _ _).bind fun _ => (World.plain_newArray _).bind fun _ => Faults.pure _
  | unparseInt =>
    exact (Faults.pure v).bind fun _ => (World.plain_newArray _).bind fun _ => Faults.pure _

lemma faults_run_nil (caller : String) (r : Routine) :
    Faults (fun c => c.Plain ∨ ∃ operation got, c = .operandTag operation got)
      (r.run caller []) := by
  have complains : ∀ {β : Type} (name : String) (f : Int32 → Act β),
      Faults (fun c => c.Plain ∨ ∃ operation got, c = .operandTag operation got)
        (firstArg name [] >>= f) := by
    intro β name f w c w' h
    cases h
    exact .inr ⟨_, _, rfl⟩
  have weaken : ∀ {α : Type} {a : Act α}, Faults Fault.Plain a →
      Faults (fun c => c.Plain ∨ ∃ operation got, c = .operandTag operation got) a :=
    fun ha _ _ _ h => .inl (ha _ _ _ h)
  cases r with
  | outOfBounds => intro w c w' h; cases h; exact .inl trivial
  | eof => exact weaken ((World.plain_read _ _).bind fun _ => Faults.pure _)
  | getchar =>
    refine weaken ((World.plain_read _ _).bind fun o => ?_)
    cases o <;> exact Faults.pure _
  | readln =>
    exact weaken ((World.plain_read _ _).bind fun _ =>
      (World.plain_newArray _).bind fun _ => Faults.pure _)
  | print => exact (complains "print" _).bind fun _ => Faults.pure _
  | println =>
    exact (complains "print" _).bind fun _ =>
      (weaken (World.plain_write _ _)).bind fun _ => Faults.pure _
  | assert => exact complains _ _
  | lengthBool => exact complains _ _
  | lengthInt => exact complains _ _
  | malloc => exact complains _ _
  | parseInt => exact complains _ _
  | unparseInt => exact complains _ _

/-- The faults of library routines are to be expected. -/
lemma expected_of_run {r : Routine} {c : Fault} (h : r.run caller args w = .error c w') :
    c.Expected := by
  cases args with
  | cons v vs => exact (plain_run caller v vs r _ _ _ h).expected
  | nil =>
    rcases faults_run_nil caller r _ _ _ h with hp | ⟨operation, got, rfl⟩
    · exact hp.expected
    · exact ⟨r, caller, w, w', h⟩

end Routine

/-! ### Operators -/

/-- A defined operator only fails for a division by zero. -/
lemma Word.expected_of_binop (hop : op ∈ Structured.BinOp.defined)
    (h : Word.binop op l r = .error c) : c.Expected := by
  cases op with
  | undefined tag => simp [Structured.BinOp.defined] at hop
  | div =>
    simp only [Word.binop] at h
    split at h
    · cases h; trivial
    · cases h
  | mod =>
    simp only [Word.binop] at h
    split at h
    · cases h; trivial
    · cases h
  | _ => cases h

end TreeMachine
