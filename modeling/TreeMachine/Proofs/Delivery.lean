import TreeMachine.Proofs.Control

/-!
# Delivery of output

What programs print goes through a buffer to a sink, which may refuse. The bytes that a sink has
accepted and those that are still pending are together what was printed, until the sink refuses;
from then on output takes nothing more. Pending bytes are passed on before input is read and when a
call from outside ends.
-/

open List

namespace TreeMachine

/-! ### Sinks and buffers -/

def Sink.bytes (s : Sink) : List UInt8 :=
  s.delivered.data.toList

/-- A writer that never refuses. -/
def Writer.Accepts (w : Writer) : Prop :=
  ∀ n delivered bytes, w.refusal n delivered bytes = none

/-- A write adds the bytes that are accepted to those delivered: all of them, or a first part of
them with a reason. -/
lemma Sink.write_spec {s s' : Sink} {b : ByteArray} {n : Nat} {why : Option String}
    (h : s.write b = (n, why, s')) :
    s'.bytes = s.bytes ++ (b.extract 0 n).data.toList ∧ s'.writer = s.writer ∧ n ≤ b.size ∧
      (why = none → n = b.size) ∧ (s.writer.Accepts → why = none) := by
  unfold write at h
  cases hr : s.writer.refusal s.writes s.delivered b with
  | none =>
    rw [hr] at h
    cases h
    exact ⟨by simp [bytes], rfl, le_rfl, fun _ => rfl, fun _ => rfl⟩
  | some refused =>
    obtain ⟨k, reason⟩ := refused
    rw [hr] at h
    cases h
    refine ⟨?_, rfl, Nat.min_le_right _ _, fun hn => (by cases hn), fun ha => ?_⟩
    · simp [bytes]
    · exact absurd (hr.symm.trans (ha _ _ _)) (by simp)

namespace Output

/-- The bytes that output has taken: those its sink has accepted, and those that are pending. -/
def taken (o : Output) : List UInt8 :=
  o.sink.bytes ++ o.buffer.data.toList

lemma cut_append (b : ByteArray) (n : Nat) :
    (b.extract 0 n).data.toList ++ (b.extract n b.size).data.toList = b.data.toList := by
  have hrest : (b.data.toList.drop n).length ≤ b.size - n := by simp [← ByteArray.size_data]
  rw [ByteArray.data_extract, ByteArray.data_extract, Array.toList_extract, Array.toList_extract,
    extract_eq_take_drop, extract_eq_take_drop, List.take_of_length_le hrest,
    drop_zero, Nat.sub_zero, take_append_drop]

lemma spill_spec (fuel : Nat) (clear : Bool) (pending : ByteArray) (sink : Sink) :
    (spill fuel clear pending sink).2.1.bytes ++ (spill fuel clear pending sink).1.data.toList =
        sink.bytes ++ pending.data.toList ∧
      (spill fuel clear pending sink).2.1.writer = sink.writer ∧
      (sink.writer.Accepts → (spill fuel clear pending sink).2.2 = none) := by
  induction fuel generalizing clear pending sink with
  | zero => exact ⟨rfl, rfl, fun _ => rfl⟩
  | succ fuel ih =>
    rw [spill]
    by_cases hsize : pending.size ≤ capacity
    · rw [if_pos hsize]
      exact ⟨rfl, rfl, fun _ => rfl⟩
    rw [if_neg hsize]
    generalize (if clear && sink.writer.direct then pending.size else capacity) = size
    dsimp only
    rcases hw : sink.write (pending.extract 0 size) with ⟨n, _ | why, sink'⟩
    · obtain ⟨hbytes, hwriter, -, hall, -⟩ := Sink.write_spec hw
      obtain ⟨hih, hkept, hnone⟩ := ih true (pending.extract size pending.size) sink'
      refine ⟨?_, hkept.trans hwriter, fun ha => hnone (hwriter ▸ ha)⟩
      rw [hih, hbytes, hall rfl, ByteArray.extract_zero_size, append_assoc, cut_append]
    · obtain ⟨hbytes, hwriter, hle, -, hnone⟩ := Sink.write_spec hw
      refine ⟨?_, hwriter, hnone⟩
      -- The accepted bytes are the first ones of all that is pending.
      have hcut : (pending.extract 0 size).extract 0 n = pending.extract 0 n := by
        rw [ByteArray.size_extract] at hle
        rw [ByteArray.extract_extract]
        congr 1
        omega
      rw [hbytes, hcut, append_assoc, cut_append]

/-- Output has taken a text: all of it, or a first part of it before the sink refused. -/
structure Keeps (text : List UInt8) (o : Output) : Prop where
  taken : o.taken <+: text
  whole : o.failure = none → o.taken = text

lemma Keeps.delivered {o : Output} (h : o.Keeps text) : o.sink.bytes <+: text :=
  (prefix_append _ _).trans h.taken

/-- Output after a text was written to it. If the sink had refused before, nothing has changed; a
writer that accepts everything does not refuse. -/
structure Takes (text : List UInt8) (o o' : Output) : Prop where
  keeps : ∀ {before : List UInt8}, o.Keeps before → o'.Keeps (before ++ text)
  stuck : o.failure ≠ none → o' = o
  writer : o'.sink.writer = o.sink.writer
  accepts : o.sink.writer.Accepts → o.failure = none → o'.failure = none

namespace Takes

variable {text text' : List UInt8} {o o1 o2 : Output}

lemma refl (o : Output) : o.Takes [] o where
  keeps h := by rwa [List.append_nil]
  stuck _ := rfl
  writer := rfl
  accepts _ h := h

lemma trans (h : o.Takes text o1) (h' : o1.Takes text' o2) : o.Takes (text ++ text') o2 where
  keeps hk := by
    rw [← append_assoc]
    exact h'.keeps (h.keeps hk)
  stuck hf := by
    obtain rfl := h.stuck hf
    exact h'.stuck hf
  writer := h'.writer.trans h.writer
  accepts ha hf := h'.accepts (h.writer ▸ ha) (h.accepts ha hf)

lemma more (h : o.Takes text o1) (hf : o1.failure ≠ none) : o.Takes (text ++ text') o1 where
  keeps hk := by
    rw [← append_assoc]
    exact ⟨(h.keeps hk).taken.trans (prefix_append _ _), fun hn => absurd hn hf⟩
  stuck := h.stuck
  writer := h.writer
  accepts := h.accepts

end Takes

lemma takes_write (o : Output) (b : ByteArray) : o.Takes b.data.toList (o.write b) := by
  obtain ⟨buffer, sink, failure⟩ := o
  cases failure with
  | some why =>
    exact ⟨fun hk => ⟨hk.taken.trans (prefix_append _ _), fun hn => by cases hn⟩,
      fun _ => rfl, rfl, fun _ hn => by cases hn⟩
  | none =>
    obtain ⟨htaken, hwriter, hnone⟩ :=
      spill_spec ((buffer ++ b).size / capacity) (buffer.size == 0) (buffer ++ b) sink
    have hall : ∀ {before : List UInt8}, Keeps before ⟨buffer, sink, none⟩ →
        (Output.write ⟨buffer, sink, none⟩ b).taken = before ++ b.data.toList := by
      intro before hk
      rw [← hk.whole rfl]
      show _ ++ _ = (_ ++ _) ++ _
      rw [append_assoc, ← Array.toList_append, ← ByteArray.data_append]
      exact htaken
    exact ⟨fun hk => ⟨hall hk ▸ prefix_rfl, fun _ => hall hk⟩, fun hn => absurd rfl hn, hwriter,
      fun ha _ => hnone ha⟩

lemma takes_flush (o : Output) : o.Takes [] o.flush := by
  obtain ⟨buffer, sink, failure⟩ := o
  cases failure with
  | some why => exact .refl _
  | none =>
    unfold flush
    dsimp only
    split
    · exact .refl _
    rcases hw : sink.write buffer with ⟨n, why, sink'⟩
    obtain ⟨hbytes, hwriter, -, hall, hnone⟩ := Sink.write_spec hw
    cases why with
    | none =>
      have htaken : Output.taken ⟨.empty, sink', none⟩ = Output.taken ⟨buffer, sink, none⟩ := by
        show _ ++ [] = _ ++ _
        rw [hbytes, hall rfl, ByteArray.extract_zero_size, List.append_nil]
      refine ⟨fun hk => ?_, fun hn => absurd rfl hn, hwriter, fun _ _ => rfl⟩
      rw [List.append_nil]
      exact ⟨htaken ▸ hk.taken, fun _ => htaken ▸ hk.whole rfl⟩
    | some reason =>
      have htaken : Output.taken ⟨buffer.extract n buffer.size, sink', some reason⟩ =
          Output.taken ⟨buffer, sink, none⟩ := by
        show _ ++ _ = _ ++ _
        rw [hbytes, append_assoc, cut_append]
      refine ⟨fun hk => ?_, fun hn => absurd rfl hn, hwriter, fun ha => by cases hnone ha⟩
      rw [List.append_nil]
      exact ⟨htaken ▸ hk.taken, fun hn => by cases hn⟩

lemma bytes_flush {o : Output} (h : o.flush.failure = none) : o.flush.sink.bytes =
    o.flush.taken := by
  obtain ⟨buffer, sink, failure⟩ := o
  have hempty : ∀ (sink : Sink) {b : ByteArray}, b.size = 0 →
      sink.bytes = Output.taken ⟨b, sink, none⟩ := by
    intro sink b hb
    have hnil : b.data.toList = [] := by
      rw [← length_eq_zero_iff]
      exact hb
    rw [Output.taken, hnil, List.append_nil]
  cases failure with
  | some why => cases h
  | none =>
    unfold flush at h ⊢
    dsimp only at h ⊢
    by_cases hb : buffer.size = 0
    · rw [if_pos hb] at h ⊢
      exact hempty sink hb
    · rw [if_neg hb] at h ⊢
      rcases hw : sink.write buffer with ⟨n, _ | why, sink'⟩
      · exact hempty _ rfl
      · rw [hw] at h
        cases h

end Output

/-! ### Library routines -/

def World.io (w : World) : Input × Output :=
  (w.input, w.output)

/-- An action neither reads input nor writes output. -/
def Act.Quiet {α : Type} (a : Act α) : Prop :=
  ∀ w, (endOf (a w)).io = w.io

namespace Act.Quiet

variable {α : Type}

lemma pure (x : α) : Quiet (Pure.pure x) := fun _ => rfl

lemma throw (c : Fault) : Quiet (throw c : Act α) := fun _ => rfl

lemma after (hf : ∀ x, Quiet (f x)) (a : Act α) (w : World) :
    (endOf ((a >>= f) w)).io = (endOf (a w)).io := by
  show (endOf (EStateM.bind a f w)).io = _
  unfold EStateM.bind
  cases a w with
  | ok x w1 => exact hf x w1
  | error c w1 => rfl

lemma bind (ha : Quiet a) (hf : ∀ x, Quiet (f x)) : Quiet (a >>= f) :=
  fun w => (after hf a w).trans (ha w)

lemma inspect (f : Heap → Except Fault α) : Quiet (World.inspect f) := by
  intro w
  rw [World.endOf_inspect]

lemma modifyHeap (f : Heap → Heap) :
    Quiet (modify fun w => { w with heap := f w.heap } : Act PUnit) :=
  fun _ => rfl

end Act.Quiet

namespace World

lemma quiet_alloc (size : Int32) : Act.Quiet (alloc size) :=
  (Act.Quiet.inspect _).bind fun addr =>
    (Act.Quiet.modifyHeap (·.extend size.toInt.toNat)).bind fun _ => .pure addr

lemma quiet_newArray (xs : List Int32) : Act.Quiet (newArray xs) :=
  (Act.Quiet.inspect _).bind fun base =>
    (Act.Quiet.modifyHeap (·.appendArray xs)).bind fun _ => .pure (base + 4)

lemma quiet_readText (ref : Int32) : Act.Quiet (readText ref) :=
  (Act.Quiet.inspect _).bind fun _ => .pure _

lemma change_cases (g : Output → Output) (operation : String) (w : World) :
    ((do modify fun w => { w with output := g w.output }; checkOutput operation : Act Unit) w =
        .ok () { w with output := g w.output } ∧ (g w.output).failure = none) ∨
      ∃ c,
        (do modify fun w => { w with output := g w.output }; checkOutput operation : Act Unit) w =
        .error c { w with output := g w.output } ∧ (g w.output).failure ≠ none := by
  simp only [bind, EStateM.bind, modify_eq, checkOutput]
  cases hf : (g w.output).failure with
  | none => exact .inl ⟨rfl, rfl⟩
  | some why => exact .inr ⟨_, rfl, by simp⟩

lemma write_cases (operation : String) (b : ByteArray) (w : World) :
    (write operation b w = .ok () { w with output := w.output.write b } ∧
        (w.output.write b).failure = none) ∨
      ∃ c, write operation b w = .error c { w with output := w.output.write b } ∧
        (w.output.write b).failure ≠ none :=
  change_cases (·.write b) operation w

lemma flush_cases (w : World) :
    (flush w = .ok () { w with output := w.output.flush } ∧ w.output.flush.failure = none) ∨
      ∃ c, flush w = .error c { w with output := w.output.flush } ∧ w.output.flush.failure ≠ none :=
  change_cases (·.flush) "flush stdout" w

lemma io_read {α : Type} (operation : String) (f : Input → Except String α × Input) (w : World) :
    (endOf (read operation f w)).output = w.output.flush ∧
      (w.output.flush.failure ≠ none → (endOf (read operation f w)).input = w.input) := by
  simp only [read, bind, EStateM.bind]
  rcases flush_cases w with ⟨hok, hnone⟩ | ⟨c, herr, -⟩
  · refine ⟨?_, fun hn => absurd hnone hn⟩
    rw [hok]
    dsimp only
    cases hr : f w.input with
    | mk r input => cases r <;> rfl
  · rw [herr]
    exact ⟨rfl, fun _ => rfl⟩

end World

namespace Routine

lemma quiet_firstArg (name : String) (args : List Int32) : Act.Quiet (firstArg name args) := by
  cases args with
  | nil => exact .throw _
  | cons v vs => exact .pure v

/-- The bytes of the text that a printing routine is to write. -/
def bytesOf? (args : List Int32) (h : Heap) : Option ByteArray :=
  match args with
  | [] => none
  | ref :: _ => (h.array ref).toOption.map fun codes =>
    (String.ofList (codes.map Utf8.charOfCode)).toUTF8

def printed (args : List Int32) (h : Heap) : Routine → List UInt8
  | .print => (bytesOf? args h).elim [] (·.data.toList)
  | .println => (bytesOf? args h).elim [] (·.data.toList ++ [10])
  | _ => []

def reads : Routine → Bool
  | .eof | .getchar | .readln => true
  | _ => false

lemma runPrint_of_none (h : bytesOf? args w.heap = none) : ∃ c, runPrint args w = .error c w := by
  cases args with
  | nil => exact ⟨_, rfl⟩
  | cons ref rest =>
    simp only [bytesOf?, Option.map_eq_none_iff] at h
    simp only [runPrint, firstArg, World.readText, World.inspect, bind, EStateM.bind, pure,
      EStateM.pure]
    cases hr : w.heap.array ref with
    | ok codes => rw [hr] at h; cases h
    | error c => exact ⟨c, rfl⟩

lemma runPrint_of_some (h : bytesOf? args w.heap = some b) :
    runPrint args w = World.write "print" b w := by
  cases args with
  | nil => cases h
  | cons ref rest =>
    simp only [bytesOf?, Option.map_eq_some_iff] at h
    obtain ⟨codes, hcodes, rfl⟩ := h
    simp only [runPrint, firstArg, World.readText, World.inspect, bind, EStateM.bind, pure,
      EStateM.pure, Except.eq_ok_of_toOption hcodes]

lemma io_of_reads {r : Routine} (h : r.reads = true) (caller : String) (args : List Int32)
    (w : World) : (endOf (r.run caller args w)).output = w.output.flush ∧
      (w.output.flush.failure ≠ none → (endOf (r.run caller args w)).input = w.input) := by
  have hafter : ∀ {α : Type} (operation : String) (f : Input → Except String α × Input)
      {g : α → Act (List Int32)}, (∀ x, (g x).Quiet) →
      (endOf ((World.read operation f >>= g) w)).output = w.output.flush ∧
        (w.output.flush.failure ≠ none →
          (endOf ((World.read operation f >>= g) w)).input = w.input) := by
    intro α operation f g hg
    have hio := Act.Quiet.after hg (World.read operation f) w
    rw [show (endOf ((World.read operation f >>= g) w)).output = _ from congrArg Prod.snd hio,
      show (endOf ((World.read operation f >>= g) w)).input = _ from congrArg Prod.fst hio]
    exact World.io_read operation f w
  cases r with
  | eof => exact hafter "eof" Input.atEnd fun _ => .pure _
  | getchar =>
    refine hafter "getchar" Input.readChar fun c => ?_
    cases c <;> exact .pure _
  | readln =>
    exact hafter "readln" Input.readLine fun line =>
      (World.quiet_newArray _).bind fun ref => .pure [ref]
  | _ => cases h

lemma quiet_run {r : Routine} (hr : r.reads = false) (hp : r ≠ .print) (hpl : r ≠ .println)
    (caller : String) (args : List Int32) : (r.run caller args).Quiet := by
  cases r with
  | eof | getchar | readln => cases hr
  | print => exact absurd rfl hp
  | println => exact absurd rfl hpl
  | outOfBounds => exact .throw _
  | assert =>
    refine (quiet_firstArg _ args).bind fun v => ?_
    split
    · exact .throw _
    · exact .pure _
  | lengthBool | lengthInt =>
    exact (quiet_firstArg _ args).bind fun ref => (Act.Quiet.inspect _).bind fun n => .pure [n]
  | malloc =>
    exact (quiet_firstArg _ args).bind fun size => (World.quiet_alloc size).bind fun a => .pure [a]
  | parseInt =>
    exact (quiet_firstArg _ args).bind fun ref => (World.quiet_readText ref).bind fun cs =>
      .pure (parseResult cs)
  | unparseInt =>
    exact (quiet_firstArg _ args).bind fun v => (World.quiet_newArray _).bind fun ref => .pure [ref]

lemma takes_print (caller : String) (args : List Int32) (w : World) :
    w.output.Takes (print.printed args w.heap) (endOf (print.run caller args w)).output := by
  have hrun : (endOf (print.run caller args w)).output = (endOf (runPrint args w)).output :=
    congrArg Prod.snd (Act.Quiet.after (fun _ => .pure []) (runPrint args) w)
  rw [hrun, printed]
  cases hb : bytesOf? args w.heap with
  | none =>
    obtain ⟨c, hrun⟩ := runPrint_of_none hb
    rw [hrun]
    exact .refl _
  | some b =>
    rw [runPrint_of_some hb]
    rcases World.write_cases "print" b w with ⟨hrun, -⟩ | ⟨c, hrun, -⟩ <;> rw [hrun] <;>
      exact w.output.takes_write b

lemma takes_println (caller : String) (args : List Int32) (w : World) :
    w.output.Takes (println.printed args w.heap) (endOf (println.run caller args w)).output := by
  rw [printed, run]
  cases hb : bytesOf? args w.heap with
  | none =>
    obtain ⟨c, hrun⟩ := runPrint_of_none hb
    rw [bind_error hrun]
    exact .refl _
  | some b =>
    have hprint := runPrint_of_some hb
    have hfirst := w.output.takes_write b
    rcases World.write_cases "print" b w with ⟨hrun, -⟩ | ⟨c, hrun, hfailed⟩
    · rw [bind_ok (hprint.trans hrun)]
      rcases World.write_cases "println" (.mk #[10]) { w with output := w.output.write b } with
        ⟨hrun, -⟩ | ⟨c, hrun, -⟩
      · rw [bind_ok hrun]
        exact hfirst.trans (Output.takes_write _ (.mk #[10]))
      · rw [bind_error hrun]
        exact hfirst.trans (Output.takes_write _ (.mk #[10]))
    · rw [bind_error (hprint.trans hrun)]
      exact hfirst.more hfailed

/-- What library routines write. -/
lemma takes_run (caller : String) (args : List Int32) (r : Routine) (w : World) :
    w.output.Takes (r.printed args w.heap) (endOf (r.run caller args w)).output := by
  have hreads : ∀ {r : Routine}, r.reads = true →
      w.output.Takes [] (endOf (r.run caller args w)).output := by
    intro r hr
    rw [(io_of_reads hr caller args w).1]
    exact w.output.takes_flush
  have hquiet : ∀ {r : Routine}, (r.run caller args).Quiet →
      w.output.Takes [] (endOf (r.run caller args w)).output := by
    intro r hr
    rw [show (endOf (r.run caller args w)).output = _ from congrArg Prod.snd (hr w)]
    exact .refl _
  cases r with
  | print => exact takes_print caller args w
  | println => exact takes_println caller args w
  | eof | getchar | readln => exact hreads rfl
  | _ => exact hquiet (quiet_run rfl (by simp) (by simp) caller args)

end Routine

namespace Machine

open Linear

variable {args : List Int32} {p : Program} {r : Routine} {w : World} {fuel : Nat} {m : Machine}
  {name : String}

/-! ### Steps -/

/-- Takes the arguments and the target of a call from the stack. -/
def takeCall (operation : String) (argc : Nat) : Exec (List Int32 × Operand) := do
  let args ← popValues operation argc
  let target ← pop operation
  return (args, target)

/-- The library routine that the next step calls, its arguments, and the world it acts on. -/
def asks? (M : Setup) (s : State) : Option (Routine × List Int32 × World) :=
  if s.Inside then
    (M.program.code[s.frame.ip.toNat]?.bind calls?).bind fun c =>
      match takeCall c.1 c.2 s with
      | .ok (args, .symbol f none) s' => (Routine.ofName? f).map (·, args, s'.world)
      | _ => none
  else none

def printed (M : Setup) (s : State) : List UInt8 :=
  match asks? M s with
  | some (r, args, w) => r.printed args w.heap
  | none => []

lemma permits_io : Permits fun w w' => w'.io = w.io where
  refl _ := rfl
  trans h h' := h'.trans h
  heap _ _ _ := rfl
  filler _ _ := rfl

lemma io_takeCall (operation : String) (argc : Nat) :
    Abides (OnWorlds fun w w' => w'.io = w.io) (fun _ => True) (takeCall operation argc) :=
  .bind permits_io.allows (.popValues permits_io.allows operation argc) fun _ =>
    .bind permits_io.allows (.pop permits_io.allows operation) fun _ => .pure permits_io.allows _

/-- How a run goes on after a call: with results, or in the function that was called. -/
def proceed (n : Structured.Node) (args : List Int32) : List Int32 ⊕ Range × Int → Exec Flow
  | .inl results => do
    deliver n results
    return .next
  | .inr (fn, addr) => return .enter fn addr args

lemma call_eq (p : Program) (n : Structured.Node) (operation : String) (argc : Nat) :
    call p n operation argc =
      takeCall operation argc >>= fun c => dispatch p c.2 c.1 >>= proceed n c.1 := by
  simp only [call, takeCall, bind_assoc, pure_bind]
  rfl

lemma io_proceed (n : Structured.Node) (args : List Int32) (r : List Int32 ⊕ Range × Int) :
    Abides (OnWorlds fun w w' => w'.io = w.io) (fun _ => True) (proceed n args r) := by
  cases r with
  | inl results =>
    exact .bind permits_io.allows (.deliver permits_io.allows n results) fun _ =>
      .pure permits_io.allows _
  | inr r => exact .pure permits_io.allows _

lemma io_of_ends {α : Type} {s : State} {r : EStateM.Result Fault State α}
    (h : Ends (OnWorlds fun w w' => w'.io = w.io) (fun _ => True) s r) :
    (endOf r).world.io = s.world.io := by
  cases r with
  | ok x s' => exact h
  | error c s' => exact h.1

lemma io_after {α β : Type} {f : α → Exec β} (m : Exec α) (s : State)
    (hf : ∀ x, Abides (OnWorlds fun w w' => w'.io = w.io) (fun _ => True) (f x)) :
    (endOf ((m >>= f) s)).world.io = (endOf (m s)).world.io := by
  cases hr : m s with
  | ok x s1 =>
    rw [bind_ok hr]
    exact io_of_ends (hf x s1)
  | error c s1 =>
    rw [bind_error hr]
    rfl

section

variable {M : Setup} {s : State}

lemma io_call {n c target s1} (hat : At M s n) (hc : calls? n = some c)
    (ht : takeCall c.1 c.2 s = .ok (args, target) s1) :
    (endOf (step M s)).world.io = (endOf (dispatch M.program target args s1)).world.io := by
  have hexec : exec M.program n s = (dispatch M.program target args >>= proceed n args) s1 := by
    rw [exec_of_calls? hc, call_eq, bind_ok ht]
  rw [hat.step, io_after (exec M.program n) s (permits_io.follow M), hexec,
    io_after _ s1 (io_proceed n args)]

lemma endOf_dispatch (h : ∀ f, target = .symbol f none → Routine.ofName? f = none) :
    endOf (dispatch p target args s) = s := by
  have henter : ∀ name addr, endOf (dispatch.enterAt p name addr s) = s := by
    intro name addr
    unfold dispatch.enterAt
    cases callee p name addr <;> rfl
  rcases target with v | ⟨_, _⟩ | ⟨_, _⟩ | ⟨f, _ | addr⟩
  · exact henter _ _
  · rfl
  · rfl
  · simp only [dispatch, h f rfl]
    rfl
  · exact henter _ _

lemma world_dispatch (h : Routine.ofName? f = some r) :
    (endOf (dispatch p (.symbol f none) args s)).world =
      endOf (r.run s.frame.fn.name args s.world) := by
  simp only [dispatch, h, bind, EStateM.bind, get_eq, onWorld]
  cases r.run s.frame.fn.name args s.world <;> rfl

lemma io_of_asks?_none (h : asks? M s = none) : (endOf (step M s)).world.io = s.world.io := by
  rcases step_cases M s with hleave | ⟨c, hfail⟩ | ⟨n, hat⟩
  · rw [hleave]
    exact io_of_ends (permits_io.leave M.program [] s)
  · rw [hfail]
    rfl
  cases hc : calls? n with
  | none =>
    rw [hat.step, io_after (exec M.program n) s (permits_io.follow M)]
    exact io_of_ends (Abides.exec_of_not_call permits_io.allows M.program hc s)
  | some c =>
    rw [asks?, if_pos hat.inside, hat.code, Option.bind_some, hc, Option.bind_some] at h
    have htake := io_of_ends (io_takeCall c.1 c.2 s)
    cases ht : takeCall c.1 c.2 s with
    | error e s1 =>
      rw [ht] at htake
      rw [hat.step, io_after (exec M.program n) s (permits_io.follow M), exec_of_calls? hc,
        call_eq, bind_error ht]
      exact htake
    | ok x s1 =>
      obtain ⟨args, target⟩ := x
      rw [ht] at h htake
      rw [io_call hat hc ht, endOf_dispatch]
      · exact htake
      · rintro f rfl
        simpa using h

lemma io_of_asks?_some (h : asks? M s = some (r, args, w)) : w.io = s.world.io ∧
      (endOf (step M s)).world.io = (endOf (r.run s.frame.fn.name args w)).io := by
  unfold asks? at h
  split at h
  swap
  · cases h
  next hin =>
  obtain ⟨c, hc, h⟩ := Option.bind_eq_some_iff.1 h
  obtain ⟨n, hn, hc⟩ := Option.bind_eq_some_iff.1 hc
  split at h
  · next args' f s1 ht =>
    obtain ⟨r', hr, he⟩ := Option.map_eq_some_iff.1 h
    cases he
    have htake := io_takeCall c.1 c.2 s
    have hsame : Ends SameFrames Fault.Shallow s (takeCall c.1 c.2 s) :=
      Abides.bind allows_sameFrames (.popValues allows_sameFrames c.1 c.2) (fun _ =>
        .bind allows_sameFrames (.pop allows_sameFrames c.1) fun _ => .pure allows_sameFrames _) s
    rw [ht] at htake hsame
    refine ⟨htake, ?_⟩
    rw [io_call ⟨hin, hn⟩ hc ht, world_dispatch hr, hsame.fn]
  · cases h

/-- What a step writes. -/
lemma takes_step (M : Setup) (s : State) :
    s.world.output.Takes (printed M s) (endOf (step M s)).world.output := by
  unfold printed
  cases h : asks? M s with
  | none =>
    rw [show (endOf (step M s)).world.output = _ from congrArg Prod.snd (io_of_asks?_none h)]
    exact .refl _
  | some c =>
    obtain ⟨r, args, w⟩ := c
    obtain ⟨hw, hrun⟩ := io_of_asks?_some h
    rw [show (endOf (step M s)).world.output = _ from congrArg Prod.snd hrun,
      ← show w.output = s.world.output from congrArg Prod.snd hw]
    exact r.takes_run s.frame.fn.name args w

lemma io_of_step_reads (h : asks? M s = some (r, args, w)) (hr : r.reads = true) :
    (endOf (step M s)).world.output = s.world.output.flush ∧
      (s.world.output.flush.failure ≠ none → (endOf (step M s)).world.input = s.world.input) := by
  obtain ⟨hw, hrun⟩ := io_of_asks?_some h
  obtain ⟨hout, hin⟩ := Routine.io_of_reads hr s.frame.fn.name args w
  rw [show w.output = s.world.output from congrArg Prod.snd hw,
    show w.input = s.world.input from congrArg Prod.fst hw] at hin
  rw [show w.output = s.world.output from congrArg Prod.snd hw] at hout
  exact ⟨(congrArg Prod.snd hrun).trans hout, fun hf => (congrArg Prod.fst hrun).trans (hin hf)⟩

end

/-! ### Calls -/

/-- What is printed until a run ends, within a number of steps. -/
def runPrinted (M : Setup) : Nat → State → List UInt8
  | 0, _ => []
  | fuel + 1, s =>
    printed M s ++ match step M s with
      | .ok .running s' => runPrinted M fuel s'
      | _ => []

/-- What a call from outside prints, within a number of steps. -/
def callPrinted (m : Machine) (fuel : Nat) (name : String) (args : List Int32) : List UInt8 :=
  match m.setup.program.labels[name]? with
  | none => (Routine.ofName? name).elim [] (·.printed args m.world.heap)
  | some addr =>
    match m.start name addr args with
    | .ok s => runPrinted m.setup fuel s
    | .error _ => []

lemma takes_of_run {M s t r} (h : run M fuel s = some (r, t)) :
    s.world.output.Takes (runPrinted M fuel s) t.world.output := by
  induction fuel generalizing s with
  | zero => cases h
  | succ fuel ih =>
    have hstep := takes_step M s
    rw [run] at h
    rw [runPrinted]
    cases hs : step M s with
    | error c s1 =>
      rw [hs] at h hstep
      cases h
      exact hstep.trans (.refl _)
    | ok signal s1 =>
      rw [hs] at h hstep
      cases signal with
      | running => exact hstep.trans (ih h)
      | finished results =>
        cases h
        exact hstep.trans (.refl _)

lemma world_of_start (h : m.start name addr args = .ok s) : s.world = m.world := by
  obtain ⟨fn, -, h⟩ := Except.bind_eq_ok h
  by_cases hdeep : m.setup.maxDepth ≤ m.depth
  · simp only [hdeep, if_true] at h
    cases h
  · simp only [hdeep, if_false] at h
    cases h
    rfl

lemma takes_of_invoke {after r} (h : m.invoke fuel name args = some (r, after)) :
    m.world.output.Takes (m.callPrinted fuel name args) after.world.output := by
  unfold invoke at h
  unfold callPrinted
  cases hl : m.setup.program.labels[name]? with
  | none =>
    rw [hl] at h
    cases hr : Routine.ofName? name with
    | none =>
      rw [hr] at h
      cases h
      exact .refl _
    | some routine =>
      have hrun := routine.takes_run rootName args m.world
      simp only [hr] at h
      cases hw : routine.run rootName args m.world <;> rw [hw] at h hrun <;> cases h <;>
        exact hrun
  | some addr =>
    rw [hl] at h
    dsimp only at h ⊢
    cases hs : m.start name addr args with
    | error c =>
      rw [hs] at h
      cases h
      exact .refl _
    | ok s =>
      rw [hs] at h
      obtain ⟨⟨r', t⟩, hrun, he⟩ := Option.map_eq_some_iff.1 h
      have htakes := takes_of_run hrun
      rw [world_of_start hs] at htakes
      cases r' <;> cases he <;> exact htakes

lemma settle_spec (m : Machine) (outcome : Except Error (List Int32)) :
    (m.settle outcome).2.world.output = m.world.output.flush ∧
      (m.world.output.flush.failure ≠ none → ∃ e, (m.settle outcome).1 = .error e) := by
  unfold settle
  rcases World.flush_cases m.world with ⟨hflush, hnone⟩ | ⟨c, hflush, -⟩
  · rw [hflush]
    cases outcome <;> exact ⟨rfl, fun hn => absurd hnone hn⟩
  · rw [hflush]
    cases outcome <;> exact ⟨rfl, fun _ => ⟨_, rfl⟩⟩

lemma output_of_callAll (hidle : m.depth = 0) (h : m.callAll fuel name args = some (outcome, m')) :
    m.world.output.Takes (m.callPrinted fuel name args) m'.world.output ∧
      (∃ o : Output, m'.world.output = o.flush) ∧
      (m'.world.output.failure ≠ none → ∃ e, outcome = .error e) := by
  obtain ⟨⟨r, after⟩, hinv, hres⟩ := Option.map_eq_some_iff.1 h
  simp only [hidle, if_true] at hres
  obtain ⟨hout, herr⟩ := settle_spec after
    (Error.wrap s!"call {name}" (r.mapError fun cause => .fault cause {}))
  rw [hres] at hout herr
  refine ⟨?_, ⟨_, hout⟩, fun hf => herr (hout ▸ hf)⟩
  have htakes := (takes_of_invoke hinv).trans after.world.output.takes_flush
  rwa [List.append_nil, ← hout] at htakes

/-! ### Sessions -/

/-- A machine after calls from outside, and all that they have printed. -/
inductive Session (m0 : Machine) : List UInt8 → Machine → Prop where
  | start : Session m0 [] m0
  | call {text : List UInt8} {m m' : Machine} {fuel : Nat} {name : String} {args : List Int32}
    {outcome : Except Error (List Int32)} : Session m0 text m →
    m.callAll fuel name args = some (outcome, m') →
    Session m0 (text ++ m.callPrinted fuel name args) m'

/-- A state in a call after others, and all that was printed until then. -/
inductive Underway (m0 : Machine) : List UInt8 → State → Prop where
  | enter {text : List UInt8} {m : Machine} {name : String} {addr : Nat} {args : List Int32}
    {s : State} : Session m0 text m → m.setup.program.labels[name]? = some addr →
    m.start name addr args = .ok s → Underway m0 text s
  | step {text : List UInt8} {s s' : State} : Underway m0 text s →
    step m0.setup s = .ok .running s' → Underway m0 (text ++ printed m0.setup s) s'

/-- The world at some moment, and all that was printed until then: between calls, before or after
a step of a call, or after a library routine that was called from outside. -/
inductive Moment (m0 : Machine) : List UInt8 → World → Prop where
  | between {text : List UInt8} {m : Machine} : Session m0 text m → Moment m0 text m.world
  | before {text : List UInt8} {s : State} : Underway m0 text s → Moment m0 text s.world
  | after {text : List UInt8} {s : State} : Underway m0 text s →
    Moment m0 (text ++ printed m0.setup s) (endOf (Machine.step m0.setup s)).world
  | routine {text : List UInt8} {m : Machine} {r : Routine} {args : List Int32} :
    Session m0 text m →
    Moment m0 (text ++ r.printed args m.world.heap) (endOf (r.run rootName args m.world))

lemma of_ofProgram (h : ofProgram p o = .ok m0) :
    m0.Idle ∧ 0 < m0.setup.maxDepth ∧ m0.world.output = { sink := o.sink } := by
  have hpos := o.depthLimit_pos
  obtain ⟨_, -, h⟩ := Except.bind_eq_ok h
  cases h
  exact ⟨⟨rfl, rfl⟩, by simpa using hpos, rfl⟩

section

variable {m0 : Machine} (hidle : m0.Idle) (hmax : 0 < m0.setup.maxDepth)

include hidle hmax

lemma idle_of_session (h : Session m0 text m) : m.Idle ∧ m.setup = m0.setup := by
  induction h with
  | start => exact ⟨hidle, rfl⟩
  | call _ hcall ih =>
    obtain ⟨hm, hsetup⟩ := ih
    obtain ⟨hm', hsetup', -⟩ := idle_callAll hm (hsetup ▸ hmax) hcall
    exact ⟨hm', hsetup'.trans hsetup⟩

lemma takes_of_session (h : Session m0 text m) : m0.world.output.Takes text m.world.output := by
  induction h with
  | start => exact .refl _
  | call hs hcall ih =>
    exact ih.trans (output_of_callAll (idle_of_session hidle hmax hs).1.depth hcall).1

lemma takes_of_underway (h : Underway m0 text s) : m0.world.output.Takes text s.world.output := by
  induction h with
  | enter hs _ hstart =>
    rw [world_of_start hstart]
    exact takes_of_session hidle hmax hs
  | @step text s s' _ hstep ih =>
    have htakes := takes_step m0.setup s
    rw [hstep] at htakes
    exact ih.trans htakes

lemma takes_of_moment (h : Moment m0 text w) : m0.world.output.Takes text w.output := by
  cases h with
  | between h => exact takes_of_session hidle hmax h
  | before h => exact takes_of_underway hidle hmax h
  | after h => exact (takes_of_underway hidle hmax h).trans (takes_step _ _)
  | routine h => exact (takes_of_session hidle hmax h).trans (Routine.takes_run _ _ _ _)

end

/-- Between two worlds input was read after a text had been delivered; or the sink has refused,
and nothing was read. -/
def ReadsAfter (text : List UInt8) (w w' : World) : Prop :=
  (w'.output.failure = none ∧ w'.output.sink.bytes = text) ∨
    (w'.output.failure ≠ none ∧ w'.input = w.input)

lemma readsAfter_of_flush (hk : w.output.Keeps text) (hout : w'.output = w.output.flush)
    (hin : w.output.flush.failure ≠ none → w'.input = w.input) : ReadsAfter text w w' := by
  by_cases hf : w.output.flush.failure = none
  · have hkeeps := w.output.takes_flush.keeps hk
    rw [List.append_nil] at hkeeps
    exact .inl (hout ▸ ⟨hf, (Output.bytes_flush hf).trans (hkeeps.whole hf)⟩)
  · exact .inr ⟨hout ▸ hf, hin hf⟩

/-- What programs print is delivered in order and completely. At every moment of any calls the
sink has accepted a first part of all that was printed until then; it refuses only if its
writer does. Whenever input is read, and whenever a call from outside has ended, the sink has
accepted all of it or it has refused. After a refusal nothing more is delivered, no input is read,
and every call from outside ends with an error. -/
theorem output_in_order {o : Options} {m0 : Machine} (h0 : ofProgram p o = .ok m0) :
    (∀ text w, m0.Moment text w → w.output.sink.bytes <+: o.sink.bytes ++ text) ∧
      (o.sink.writer.Accepts → ∀ text w, m0.Moment text w → w.output.failure = none) ∧
      (∀ text s r args w, m0.Underway text s → asks? m0.setup s = some (r, args, w) →
        r.reads = true →
        ReadsAfter (o.sink.bytes ++ text) s.world (endOf (step m0.setup s)).world) ∧
      (∀ text m r args, m0.Session text m → Routine.reads r = true →
        ReadsAfter (o.sink.bytes ++ text) m.world (endOf (r.run rootName args m.world))) ∧
      (∀ text m, m0.Session text m → m.world.output.failure = none →
        m.world.output.sink.bytes = o.sink.bytes ++ text) ∧
      (∀ text s, m0.Underway text s → s.world.output.failure ≠ none →
        (endOf (step m0.setup s)).world.output = s.world.output) ∧
      ∀ text m fuel name args outcome m', m0.Session text m →
        m.callAll fuel name args = some (outcome, m') →
        (m'.world.output.failure ≠ none → ∃ e, outcome = .error e) ∧
          (m.world.output.failure ≠ none → m'.world.output = m.world.output) := by
  obtain ⟨hidle, hmax, hstart⟩ := of_ofProgram h0
  have hkeeps : m0.world.output.Keeps o.sink.bytes := by
    rw [hstart]
    have htaken : ({ sink := o.sink } : Output).taken = o.sink.bytes := List.append_nil _
    exact ⟨htaken ▸ prefix_rfl, fun _ => htaken⟩
  have hopen : m0.world.output.failure = none := by rw [hstart]
  have hwriter : m0.world.output.sink.writer = o.sink.writer := by rw [hstart]
  refine ⟨fun text w h => ?_, fun ha text w h => ?_, fun text s r args w h hasks hr => ?_,
    fun text m r args h hr => ?_, fun text m h hf => ?_, fun text s h hf => ?_,
    fun text m fuel name args outcome m' h hcall => ?_⟩
  · exact ((takes_of_moment hidle hmax h).keeps hkeeps).delivered
  · exact (takes_of_moment hidle hmax h).accepts (hwriter ▸ ha) hopen
  · obtain ⟨hout, hin⟩ := io_of_step_reads hasks hr
    exact readsAfter_of_flush ((takes_of_underway hidle hmax h).keeps hkeeps) hout hin
  · obtain ⟨hout, hin⟩ := Routine.io_of_reads hr rootName args m.world
    exact readsAfter_of_flush ((takes_of_session hidle hmax h).keeps hkeeps) hout hin
  · have hall := ((takes_of_session hidle hmax h).keeps hkeeps).whole hf
    cases h with
    | start =>
      rw [hstart, List.append_nil]
    | call hs hcall =>
      obtain ⟨-, ⟨out, hout⟩, -⟩ :=
        output_of_callAll (idle_of_session hidle hmax hs).1.depth hcall
      rw [hout] at hf hall ⊢
      exact (Output.bytes_flush hf).trans hall
  · exact (takes_step m0.setup s).stuck hf
  · obtain ⟨htakes, -, herr⟩ :=
      output_of_callAll (idle_of_session hidle hmax h).1.depth hcall
    exact ⟨herr, htakes.stuck⟩

/-- Prints a letter, reads a character, and prints the letter again. -/
def printing : Structured.CodeUnit where
  name := "printing"
  functions := [
    { name := "main"
      params := []
      body := .seq [
        .move (.temp "a") (.call (.name "malloc") [.const 8]),
        .move (.mem (.temp "a")) (.const 1),
        .move (.mem (.binop .add (.temp "a") (.const 4))) (.const 65),
        .call 0 (.name "print") [.binop .add (.temp "a") (.const 4)],
        .exp (.call (.name "getchar") []),
        .call 0 (.name "println") [.binop .add (.temp "a") (.const 4)]] }]

/-- Accepts two bytes in total, and what fits of a write that passes them. -/
def twoBytes : Writer where
  refusal _ delivered bytes :=
    if 2 < delivered.size + bytes.size then some (2 - delivered.size, "full") else none

/-- A writer for two bytes gets the first letter, before the character is read, and of the second
line only the letter. -/
theorem output_in_order_printing : ∃ p m m', Program.ofUnit printing = .ok p ∧
    ofProgram p { sink := { writer := twoBytes } } = .ok m ∧ m.Session [65, 65, 10] m' ∧
    m'.world.output.sink.bytes = [65, 65] ∧ m'.world.output.sink.bytes <+: [65, 65, 10] ∧
    ∀ fuel name args outcome m'', m'.callAll fuel name args = some (outcome, m'') →
      (∃ e, outcome = .error e) ∧ m''.world.output.sink.bytes = [65, 65] := by
  have hrun : ((Program.ofUnit printing).toOption.bind fun p =>
    (ofProgram p { sink := { writer := twoBytes } }).toOption.bind fun m =>
    (m.callAll 100 "main" []).map fun r =>
      decide (m.callPrinted 100 "main" [] = [65, 65, 10] ∧
        r.2.world.output.sink.bytes = [65, 65] ∧ r.2.world.output.failure ≠ none)) = some true := by
    decide +kernel
  obtain ⟨p, hp, hrun⟩ := Except.bind_eq_some.1 hrun
  obtain ⟨m, hm, hrun⟩ := Except.bind_eq_some.1 hrun
  obtain ⟨⟨outcome, m'⟩, hcall, hrun⟩ := Option.map_eq_some_iff.1 hrun
  obtain ⟨htext, hbytes, hfailed⟩ := of_decide_eq_true hrun
  have hsession : m.Session [65, 65, 10] m' := by
    have h := Session.call .start hcall
    rwa [htext] at h
  obtain ⟨hstart, -, -, -, -, -, hcalls⟩ := output_in_order hm
  refine ⟨p, m, m', hp, hm, hsession, hbytes, hstart _ _ (.between hsession), ?_⟩
  intro fuel name args outcome' m'' hcall'
  obtain ⟨herr, hsame⟩ := hcalls _ _ _ _ _ _ _ hsession hcall'
  have hout := hsame hfailed
  exact ⟨herr (hout ▸ hfailed), by rw [hout]; exact hbytes⟩

end Machine

end TreeMachine
