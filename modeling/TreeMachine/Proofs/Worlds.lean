import TreeMachine.Machine.Library
import TreeMachine.Proofs.Isolation

/-!
# What library routines leave alone

No library routine looks at the source of fillers or changes it, and none takes memory back.
Both hold of the primitive actions and of actions put together from them.
-/

namespace TreeMachine

def World.refill (w : World) (f : Pcg) : World :=
  { w with filler := f }

@[simp] lemma World.refill_heap (w : World) (f : Pcg) : (w.refill f).heap = w.heap := rfl

@[simp] lemma World.refill_input (w : World) (f : Pcg) : (w.refill f).input = w.input := rfl

@[simp] lemma World.refill_output (w : World) (f : Pcg) : (w.refill f).output = w.output := rfl

@[simp] lemma World.refill_refill (w : World) (f g : Pcg) :
    (w.refill f).refill g = w.refill g := rfl

@[simp] lemma World.refill_self (w : World) : w.refill w.filler = w := rfl

/-- Two worlds differ at most in the source of fillers. -/
def World.Alike (w w' : World) : Prop :=
  ∃ f, w' = w.refill f

namespace World.Alike

lemma refl (w : World) : w.Alike w := ⟨w.filler, rfl⟩

lemma symm {w w' : World} (h : w.Alike w') : w'.Alike w := by
  obtain ⟨f, rfl⟩ := h
  exact ⟨w.filler, rfl⟩

lemma trans {w w1 w2 : World} (h : w.Alike w1) (h' : w1.Alike w2) : w.Alike w2 := by
  obtain ⟨f, rfl⟩ := h
  obtain ⟨g, rfl⟩ := h'
  exact ⟨g, rfl⟩

lemma heap {w w' : World} (h : w.Alike w') : w'.heap = w.heap := by
  obtain ⟨f, rfl⟩ := h
  rfl

lemma input {w w' : World} (h : w.Alike w') : w'.input = w.input := by
  obtain ⟨f, rfl⟩ := h
  rfl

lemma output {w w' : World} (h : w.Alike w') : w'.output = w.output := by
  obtain ⟨f, rfl⟩ := h
  rfl

end World.Alike

/-! ### The heap -/

/-- A heap has become another without that memory was taken back, and with the same limit. -/
structure Heap.Grows (h h' : Heap) : Prop where
  used : h.used ≤ h'.used
  limit : h'.limit = h.limit

lemma Heap.Grows.refl (h : Heap) : h.Grows h := ⟨le_rfl, rfl⟩

lemma Heap.Grows.trans {h h1 h2 : Heap} (g : h.Grows h1) (g' : h1.Grows h2) : h.Grows h2 :=
  ⟨le_trans g.used g'.used, g'.limit.trans g.limit⟩

lemma Heap.Grows.of_eq {h h' : Heap} (hu : h'.used = h.used) (hl : h'.limit = h.limit) :
    h.Grows h' :=
  ⟨le_of_eq hu.symm, hl⟩

lemma Heap.grows_extend (h : Heap) (n : Nat) : h.Grows (h.extend n) := by
  refine ⟨?_, h.limit_extend n⟩
  unfold Heap.extend
  split_ifs
  · exact Nat.le_add_right _ _
  · exact le_rfl

lemma Heap.grows_appendArray (h : Heap) (xs : List Int32) : h.Grows (h.appendArray xs) := by
  rw [h.appendArray_eq]
  exact (h.grows_extend _).trans (.of_eq (Heap.used_writeAll _ _ _) (Heap.limit_writeAll _ _ _))

/-- The state a computation ends in, whether it fails or not. -/
def endOf {ε σ α : Type} : EStateM.Result ε σ α → σ
  | .ok _ s => s
  | .error _ s => s

lemma World.endOf_inspect {α : Type} (f : Heap → Except Fault α) (w : World) :
    endOf (World.inspect f w) = w := by
  unfold World.inspect
  cases f w.heap <;> rfl

/-- What an action gives in a world with another source of fillers. -/
def refilled {ε α : Type} (f : Pcg) : EStateM.Result ε World α → EStateM.Result ε World α
  | .ok x w => .ok x (w.refill f)
  | .error c w => .error c (w.refill f)

namespace Act

variable {α : Type}

/-- An action neither looks at the source of fillers nor changes it, and takes no memory
back. -/
structure Tame (a : Act α) : Prop where
  blind : ∀ w f, a (w.refill f) = refilled f (a w)
  grows : ∀ w : World, w.heap.Grows (endOf (a w)).heap

namespace Tame

lemma pure (x : α) : Tame (Pure.pure x) := ⟨fun _ _ => rfl, fun _ => .refl _⟩

lemma throw (c : Fault) : Tame (throw c : Act α) := ⟨fun _ _ => rfl, fun _ => .refl _⟩

lemma bind (ha : Tame a) (hg : ∀ x, Tame (g x)) : Tame (a >>= g) := by
  refine ⟨fun w f => ?_, fun w => ?_⟩
  · show EStateM.bind a g (w.refill f) = refilled f (EStateM.bind a g w)
    unfold EStateM.bind
    rw [ha.blind w f]
    cases a w with
    | ok x w1 => exact (hg x).blind w1 f
    | error c w1 => rfl
  · show Heap.Grows _ (endOf (EStateM.bind a g w)).heap
    have haw := ha.grows w
    unfold EStateM.bind
    cases hr : a w with
    | ok x w1 =>
      rw [hr] at haw
      exact haw.trans ((hg x).grows w1)
    | error c w1 =>
      rw [hr] at haw
      exact haw

lemma modify (hf : ∀ w f, h (w.refill f) = (h w).refill f)
    (hw : ∀ w : World, w.heap.Grows (h w).heap) : Tame (modify h : Act PUnit) := by
  refine ⟨fun w f => ?_, hw⟩
  show EStateM.Result.ok _ (h (w.refill f)) = EStateM.Result.ok _ ((h w).refill f)
  rw [hf]

lemma inspect (h : Heap → Except Fault α) : Tame (World.inspect h) := by
  refine ⟨fun w f => ?_, fun w => ?_⟩
  · unfold World.inspect
    rw [World.refill_heap]
    cases h w.heap <;> rfl
  · unfold World.inspect
    cases h w.heap <;> exact .refl _

lemma alike (ha : Tame a) (h : w.Alike w') : ∃ f, a w' = refilled f (a w) := by
  obtain ⟨f, rfl⟩ := h
  exact ⟨f, ha.blind w f⟩

end Tame

end Act

open Act

/-! ### Primitive actions -/

namespace World

lemma tame_store (addr v : Int32) : Tame (store addr v) :=
  (Tame.inspect _).bind fun _ => Tame.modify (fun _ _ => rfl) fun _ =>
    .of_eq (Heap.used_putWord _ _ _) (Heap.limit_putWord _ _ _)

lemma tame_reserve {size : Int32} {g : Heap → Heap} (x : Int32 → Int32)
    (hg : ∀ h : Heap, h.Grows (g h)) :
    Tame (do
      let base ← inspect (·.room size)
      modify fun w => { w with heap := g w.heap }
      return x base : Act Int32) :=
  (Tame.inspect _).bind fun _ =>
    (Tame.modify (fun _ _ => rfl) fun w => hg w.heap).bind fun _ => .pure _

lemma tame_alloc (size : Int32) : Tame (alloc size) :=
  tame_reserve id (Heap.grows_extend · _)

lemma tame_newArray (xs : List Int32) : Tame (newArray xs) :=
  tame_reserve (· + 4) (Heap.grows_appendArray · xs)

lemma tame_readText (ref : Int32) : Tame (readText ref) :=
  (Tame.inspect _).bind fun _ => Tame.pure _

lemma tame_checkOutput (operation : String) : Tame (checkOutput operation) := by
  refine ⟨fun w f => ?_, fun w => ?_⟩
  · unfold checkOutput
    rw [refill_output]
    cases w.output.failure <;> rfl
  · unfold checkOutput
    cases w.output.failure <;> exact .refl _

lemma tame_setOutput (g : Output → Output) :
    Tame (modify fun w => { w with output := g w.output } : Act PUnit) :=
  Tame.modify (fun _ _ => rfl) fun _ => .refl _

lemma tame_write (operation : String) (bytes : ByteArray) : Tame (write operation bytes) :=
  (tame_setOutput (·.write bytes)).bind fun _ => tame_checkOutput operation

lemma tame_flush : Tame flush :=
  (tame_setOutput (·.flush)).bind fun _ => tame_checkOutput _

lemma tame_read {α : Type} (operation : String) (g : Input → Except String α × Input) :
    Tame (read operation g) := by
  refine tame_flush.bind fun _ => ⟨fun w f => ?_, fun w => ?_⟩
  · simp only [refill_input]
    match g w.input with
    | (.ok _, _) => rfl
    | (.error _, _) => rfl
  · match g w.input with
    | (.ok _, _) => exact .refl _
    | (.error _, _) => exact .refl _

/-- Drawing a filler changes the source of fillers only. The generator itself is kept closed
here: nothing depends on what it draws. -/
lemma drawFiller_eq (w : World) :
    drawFiller w = .ok w.filler.nextInt32.1 (w.refill w.filler.nextInt32.2) := by
  unfold drawFiller
  generalize Pcg.nextInt32 = next
  rfl

end World

/-! ### Routines -/

namespace Routine

lemma tame_firstArg (name : String) (args : List Int32) : Tame (firstArg name args) := by
  cases args with
  | nil => exact Tame.throw _
  | cons v vs => exact Tame.pure v

lemma tame_runPrint (args : List Int32) : Tame (runPrint args) :=
  (tame_firstArg _ args).bind fun _ =>
    (World.tame_readText _).bind fun _ => World.tame_write _ _

/-- No routine looks at the source of fillers, changes it, or takes memory back. -/
lemma tame_run (caller : String) (args : List Int32) (r : Routine) : Tame (r.run caller args) := by
  cases r with
  | outOfBounds => exact Tame.throw _
  | assert =>
    refine (tame_firstArg _ args).bind fun v => ?_
    by_cases hv : v = 0
    · simp only [hv, if_true]
      exact (Tame.throw _).bind fun _ => Tame.pure _
    · simp only [hv, if_false]
      exact (Tame.pure _).bind fun _ => Tame.pure _
  | eof => exact (World.tame_read _ _).bind fun _ => Tame.pure _
  | getchar =>
    refine (World.tame_read _ _).bind fun c => ?_
    cases c <;> exact Tame.pure _
  | lengthBool | lengthInt =>
    exact (tame_firstArg _ args).bind fun _ => (Tame.inspect _).bind fun _ => Tame.pure _
  | malloc =>
    exact (tame_firstArg _ args).bind fun _ => (World.tame_alloc _).bind fun _ => Tame.pure _
  | parseInt =>
    exact (tame_firstArg _ args).bind fun _ => (World.tame_readText _).bind fun _ => Tame.pure _
  | print => exact (tame_runPrint args).bind fun _ => Tame.pure _
  | println =>
    exact (tame_runPrint args).bind fun _ => (World.tame_write _ _).bind fun _ => Tame.pure _
  | readln =>
    exact (World.tame_read _ _).bind fun _ => (World.tame_newArray _).bind fun _ => Tame.pure _
  | unparseInt =>
    exact (tame_firstArg _ args).bind fun _ => (World.tame_newArray _).bind fun _ => Tame.pure _

end Routine

end TreeMachine
