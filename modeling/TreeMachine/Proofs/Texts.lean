import TreeMachine.Proofs.ArrayStorage
import TreeMachine.Proofs.Characters
import TreeMachine.Proofs.Decimals
import TreeMachine.Proofs.Delivery

/-!
# Texts of a run

What the routines do that read and write texts. A line is read as its characters one by one are,
though one routine decodes bytes as they come and the other cuts the line first. Numbers are put
into texts and read back.
-/

open List

namespace TreeMachine

/-- Characters without one carriage return at their end. -/
def dropReturn (cs : List Int32) : List Int32 :=
  if cs.getLast? = some 13 then cs.dropLast else cs

lemma dropReturn_codes (l : List UInt8) : (Utf8.decode (Input.dropEnd 13 l)).map Utf8.codeOfChar =
      dropReturn ((Utf8.decode l).map Utf8.codeOfChar) := by
  rcases eq_nil_or_concat l with rfl | ⟨l, b, rfl⟩
  · rfl
  rw [concat_eq_append]
  by_cases hb : b = 13
  · subst hb
    rw [Utf8.decode_concat_return]
    simp [Input.dropEnd, dropReturn, show Utf8.codeOfChar '\r' = 13 from rfl]
  · have hlast : ((Utf8.decode (l ++ [b])).map Utf8.codeOfChar).getLast? ≠ some 13 := by
      intro h
      rw [List.getLast?_map, Option.map_eq_some_iff] at h
      obtain ⟨c, hc, hcode⟩ := h
      obtain rfl : c = '\r' := Utf8.codeOfChar_inj.1 hcode
      obtain ⟨cs, hcs⟩ := List.getLast?_eq_some_iff.1 hc
      obtain ⟨l', hl⟩ := Utf8.return_of_decode _ hcs
      exact hb (List.cons.inj (append_inj' hl rfl).2).1
    rw [dropReturn, if_neg hlast, Input.dropEnd, if_neg (by simpa using hb)]

/-! ### Room for a text -/

namespace Heap

/-- There is room for an array of `n` words, and its addresses are words. -/
structure HasRoom (h : Heap) (n : Nat) : Prop where
  within : (h.used : Int) + 4 * (n + 1) ≤ h.limit
  addressable : h.used + 4 * (n + 1) < 2 ^ 31

lemma HasRoom.newArray {h : Heap} {xs : List Int32} (hroom : h.HasRoom xs.length) :
    ∃ r h', h.newArray xs = .ok (r, h') ∧ h'.array r = .ok xs ∧
      h'.arrayLength r = .ok (Int32.ofNat xs.length) := by
  obtain ⟨hwithin, haddr⟩ := hroom
  have hfit : (h.used : Int) + 4 * (xs.length + 1) < 2 ^ 31 := by omega
  have hsize : (arraySize xs.length).toInt = 4 * ((xs.length : Int) + 1) := by
    rw [toInt_arraySize, Int.bmod_eq_of_le (by omega) (by omega)]
  have hnew : h.newArray xs = .ok (Int32.ofNat h.used + 4, h.appendArray xs) :=
    newArray_eq_ok_iff.2 ⟨_, room_eq_ok_iff.2 ⟨⟨by omega, by omega, by omega⟩, rfl⟩, rfl, rfl⟩
  exact ⟨_, _, hnew, array_of_newArray hfit hnew, (arrayAt_of_newArray hfit hnew).length⟩

end Heap

/-! ### Reading lines and characters -/

lemma Output.flush_flush {o : Output} (h : o.flush.failure = none) : o.flush.flush = o.flush := by
  obtain ⟨buffer, sink, _ | why⟩ := o
  · by_cases hsize : buffer.size = 0
    · simp [flush, hsize]
    · rcases hw : sink.write buffer with ⟨n, _ | why, sink'⟩
      · simp [flush, hsize, hw]
      · simp [flush, hsize, hw] at h
  · cases h

namespace World

variable {w w' : World} {caller : String} {args : List Int32}

lemma read_eq_ok_iff {α : Type} {operation : String} {f : Input → Except String α × Input}
    {a : α} : read operation f w = .ok a w' ↔ w.output.flush.failure = none ∧
      (f w.input).1 = .ok a ∧ w' = { w with output := w.output.flush, input := (f w.input).2 } := by
  unfold read
  rcases flush_cases w with ⟨hok, hnone⟩ | ⟨c, herr, hsome⟩
  · simp only [bind, EStateM.bind, hok, hnone, true_and]
    rcases f w.input with ⟨_ | _, _⟩ <;> simp [eq_comm]
  · simp [bind, EStateM.bind, herr, hsome]

/-- Calls of `getchar` up to the end of a line or of the input, and what they give before it. -/
inductive GetsLine (caller : String) : World → List Int32 → World → Prop where
  | stop {w w' : World} (args : List Int32) {v : Int32} :
    Routine.getchar.run caller args w = .ok [v] w' → v = 10 ∨ v = -1 → GetsLine caller w [] w'
  | more {w w1 w' : World} (args : List Int32) {v : Int32} {vs : List Int32} :
    Routine.getchar.run caller args w = .ok [v] w1 → v ≠ 10 → v ≠ -1 →
    GetsLine caller w1 vs w' → GetsLine caller w (v :: vs) w'

lemma readChar_eq {i : Input} (hf : i.failure = none) :
    i.readChar.1 = .ok ((Utf8.next? i.rest).map (·.1)) ∧
      i.readChar.2.rest = (Utf8.next? i.rest).elim i.rest (·.2) ∧ i.readChar.2.failure = none := by
  unfold Input.readChar
  have hkept : ∀ j : Input, j = i ∨ j = i.fill → j.rest = i.rest ∧ j.failure = none := by
    rintro j (rfl | rfl) <;> exact ⟨rfl, hf⟩
  extract_lets j
  obtain ⟨hrest, hfail⟩ := hkept j (by unfold j; split <;> simp)
  rw [← hrest]
  cases Utf8.next? j.rest with
  | none => exact ⟨by rw [hfail]; rfl, rfl, hfail⟩
  | some e => exact ⟨rfl, rfl, hfail⟩

lemma getchar_eq_ok_iff (hf : w.input.failure = none) {vs : List Int32} :
    Routine.getchar.run caller args w = .ok vs w' ↔ w.output.flush.failure = none ∧
      vs = [((Utf8.next? w.input.rest).map (·.1)).elim (-1) Utf8.codeOfChar] ∧
      w' = { w with output := w.output.flush, input := w.input.readChar.2 } := by
  have hread := (readChar_eq hf).1
  have hall : Routine.getchar.run caller args w = .ok vs w' ↔
      ∃ c w1, read "getchar" Input.readChar w = .ok c w1 ∧ vs = [c.elim (-1) Utf8.codeOfChar] ∧
        w' = w1 := by
    unfold Routine.run
    simp only [bind, EStateM.bind]
    rcases read "getchar" Input.readChar w with ⟨_ | c, w1⟩ | _ <;>
      simp [pure, EStateM.pure, eq_comm, and_comm]
  rw [hall]
  constructor
  · rintro ⟨c, w1, hok, rfl, rfl⟩
    obtain ⟨hflush, hc, rfl⟩ := read_eq_ok_iff.1 hok
    obtain rfl := Except.ok.inj (hread.symm.trans hc)
    exact ⟨hflush, rfl, rfl⟩
  · rintro ⟨hflush, rfl, rfl⟩
    exact ⟨_, _, read_eq_ok_iff.2 ⟨hflush, hread, rfl⟩, rfl, rfl⟩

lemma codeOfChar_ne (c : Char) : Utf8.codeOfChar c ≠ -1 := by
  intro h
  have hint := Utf8.codeOfChar_toInt c
  rw [h] at hint
  have hone : (-1 : Int32).toInt = -1 := rfl
  omega

lemma bytes_of_getsLine {vs : List Int32} (h : GetsLine caller w vs w')
    (hf : w.input.failure = none) : w.output.flush.failure = none ∧
      ∃ l, 10 ∉ l ∧ vs = (Utf8.decode l).map Utf8.codeOfChar ∧
        (w.input.rest = l ∧ w'.input.rest = [] ∨ w.input.rest = l ++ 10 :: w'.input.rest) := by
  induction h with
  | @stop w w' args v hget hv =>
    obtain ⟨hflush, hvs, rfl⟩ := (getchar_eq_ok_iff hf).1 hget
    refine ⟨hflush, [], not_mem_nil, rfl, ?_⟩
    obtain ⟨-, hrest, -⟩ := readChar_eq hf
    obtain rfl := (List.cons.inj hvs).1
    show _ ∧ w.input.readChar.2.rest = [] ∨ w.input.rest = [] ++ 10 :: w.input.readChar.2.rest
    rw [hrest]
    cases hnext : Utf8.next? w.input.rest with
    | none =>
      cases hi : w.input.rest with
      | nil => exact .inl ⟨rfl, rfl⟩
      | cons b bs =>
        obtain ⟨c, rest, hsome, -⟩ := Utf8.next?_cons b bs
        rw [hi, hsome] at hnext
        cases hnext
    | some e =>
      obtain ⟨c, rest⟩ := e
      rw [hnext] at hv
      have hcode : Utf8.codeOfChar c = Utf8.codeOfChar '\n' := hv.resolve_right (codeOfChar_ne _)
      refine .inr ?_
      rcases Utf8.next?_cases hnext with heq | ⟨hc, -⟩
      · rw [heq, Utf8.codeOfChar_inj.1 hcode]
        rfl
      · rw [Utf8.codeOfChar_inj.1 hcode] at hc
        exact absurd hc (by decide)
  | @more w w1 w' args v vs hget hten hend _ ih =>
    obtain ⟨hflush, hvs, rfl⟩ := (getchar_eq_ok_iff hf).1 hget
    obtain ⟨-, hrest, hfail⟩ := readChar_eq hf
    obtain ⟨-, l, hl, rfl, hends⟩ := ih hfail
    obtain rfl := (List.cons.inj hvs).1
    cases hnext : Utf8.next? w.input.rest with
    | none =>
      rw [hnext] at hend
      exact absurd rfl hend
    | some e =>
      obtain ⟨c, rest⟩ := e
      rw [hnext] at hrest hten hend
      have hrest : w.input.readChar.2.rest = rest := hrest
      dsimp only at hends
      rw [hrest] at hends
      have hnewline : c ≠ '\n' := by
        rintro rfl
        exact hten rfl
      refine ⟨hflush, ?_⟩
      -- The bytes of the character go to the front of the line.
      rcases Utf8.next?_cases hnext with heq | ⟨rfl, b, heq⟩
      · refine ⟨String.utf8EncodeChar c ++ l, ?_, ?_, ?_⟩
        · rw [mem_append, not_or]
          refine ⟨fun hmem => hnewline ?_, hl⟩
          exact (Utf8.eq_singleton_of_mem hmem (by decide)).2
        · rw [Utf8.decode_encodeChar]
          rfl
        · rw [heq]
          rcases hends with ⟨rfl, hend⟩ | heq'
          · exact .inl ⟨rfl, hend⟩
          · exact .inr (by rw [heq', append_assoc])
      · rw [heq] at hnext
        have hb : b ≠ 10 := by
          rintro rfl
          cases hnext
        have hdecode : Utf8.next? (b :: l) = some (Utf8.replacement, l) := by
          rcases hends with ⟨rfl, -⟩ | rfl
          · exact hnext
          · exact Utf8.next?_of_append hnext
        refine ⟨b :: l, ?_, ?_, ?_⟩
        · rw [mem_cons, not_or]
          exact ⟨Ne.symm hb, hl⟩
        · rw [Utf8.decode_of_next? hdecode]
          rfl
        · rw [heq]
          rcases hends with ⟨rfl, hend⟩ | rfl
          · exact .inl ⟨rfl, hend⟩
          · exact .inr rfl

lemma cutLine_eq {l : List UInt8} (hl : 10 ∉ l) : Input.cutLine l = (l, [], false) ∧
    ∀ r, Input.cutLine (l ++ 10 :: r) = (l ++ [10], r, true) := by
  induction l with
  | nil => exact ⟨rfl, fun r => rfl⟩
  | cons b l ih =>
    obtain ⟨hb, hl⟩ := not_or.1 (mem_cons.not.1 hl)
    obtain ⟨hend, hline⟩ := ih hl
    have hb : (b == 10) = false := by simpa using Ne.symm hb
    exact ⟨by simp [Input.cutLine, hb, hend], fun r => by simp [Input.cutLine, hb, hline]⟩

lemma dropEnd_of_not_mem {b : UInt8} {l : List UInt8} (h : b ∉ l) : Input.dropEnd b l = l := by
  refine if_neg fun hlast => h ?_
  exact List.mem_of_getLast? (beq_iff_eq.1 hlast)

lemma readLine_eq {i : Input} (hf : i.failure = none) {l rest : List UInt8} (hl : 10 ∉ l)
    (h : i.rest = l ∧ rest = [] ∨ i.rest = l ++ 10 :: rest) :
    i.readLine.1 = .ok (Input.dropEnd 13 l) ∧ i.readLine.2.rest = rest := by
  obtain ⟨hend, hline⟩ := cutLine_eq hl
  unfold Input.readLine
  rcases h with ⟨hi, rfl⟩ | hi
  · rw [hi, hend, hf]
    refine ⟨?_, rfl⟩
    show Except.ok (Input.dropEnd 13 (Input.dropEnd 10 l)) = _
    rw [dropEnd_of_not_mem hl]
  · rw [hi, hline]
    refine ⟨?_, rfl⟩
    simp [Input.chomp, show Input.dropEnd 10 (l ++ [10]) = l by simp [Input.dropEnd]]

lemma exists_getsLine (hf : w.input.failure = none) (ho : w.output.flush.failure = none) :
    ∃ vs w', GetsLine caller w vs w' := by
  induction hn : w.input.rest.length using Nat.strong_induction_on generalizing w with
  | _ n ih =>
    have hget : Routine.getchar.run caller [] w = .ok _ _ :=
      (getchar_eq_ok_iff hf).2 ⟨ho, rfl, rfl⟩
    by_cases hstop : ((Utf8.next? w.input.rest).map (·.1)).elim (-1) Utf8.codeOfChar = 10 ∨
        ((Utf8.next? w.input.rest).map (·.1)).elim (-1) Utf8.codeOfChar = -1
    · exact ⟨_, _, .stop [] hget hstop⟩
    · obtain ⟨hten, hend⟩ := not_or.1 hstop
      obtain ⟨-, hrest, hfail⟩ := readChar_eq hf
      cases hnext : Utf8.next? w.input.rest with
      | none => rw [hnext] at hend; exact absurd rfl hend
      | some e =>
        obtain ⟨c, rest⟩ := e
        rw [hnext] at hrest
        obtain ⟨vs, w', hgets⟩ := ih _ (hn ▸ Utf8.length_of_next? hnext)
          (w := { w with output := w.output.flush, input := w.input.readChar.2 }) hfail
          (by rw [Output.flush_flush ho]; exact ho) (congrArg List.length hrest)
        exact ⟨_, w', .more [] hget hten hend hgets⟩

lemma atEnd_eq {i : Input} (hf : i.failure = none) :
    i.atEnd.1 = .ok i.rest.isEmpty ∧ i.atEnd.2.rest = i.rest := by
  unfold Input.atEnd
  extract_lets j
  have hj : j.rest = i.rest ∧ j.failure = none := by
    unfold j
    split <;> exact ⟨rfl, hf⟩
  rw [hj.2, ← hj.1]
  cases hi : j.rest <;> exact ⟨rfl, hi⟩

lemma eof_eq_ok_iff {vs : List Int32} : Routine.eof.run caller args w = .ok vs w' ↔
    ∃ b w1, read "eof" Input.atEnd w = .ok b w1 ∧ vs = [if b then 1 else 0] ∧ w' = w1 := by
  unfold Routine.run
  simp only [bind, EStateM.bind]
  rcases read "eof" Input.atEnd w with ⟨_ | _, _⟩ | _ <;>
    simp [pure, EStateM.pure, eq_comm, and_comm]

/-- Lines, characters and the end of the input agree. While the input does not fail and output is
passed on, `eof` answers and calls of `getchar` come to a line feed or to the end; then `readln`
gives an array of just the codes before it, without a carriage return at their end, and leaves the
same bytes. And `eof` leaves all bytes, and gives one just if `getchar` would give minus one. -/
theorem lines_agree (caller : String) (args : List Int32) {w : World}
    (hf : w.input.failure = none) :
    (w.output.flush.failure = none → (∃ vs w', GetsLine caller w vs w') ∧
      ∃ vs w', Routine.eof.run caller args w = .ok vs w') ∧
    (∀ vs w', GetsLine caller w vs w' → w.heap.HasRoom (dropReturn vs).length →
      ∃ r w'', Routine.readln.run caller args w = .ok [r] w'' ∧
        w''.heap.array r = .ok (dropReturn vs) ∧ w''.input.rest = w'.input.rest) ∧
    (∀ vs w', Routine.eof.run caller args w = .ok vs w' →
      w'.input.rest = w.input.rest ∧ (vs = [0] ∨ vs = [1])) ∧
    ((∃ w', Routine.eof.run caller args w = .ok [1] w') ↔
      ∃ w', Routine.getchar.run caller args w = .ok [-1] w') := by
  refine ⟨fun ho => ⟨exists_getsLine hf ho, ?_⟩, fun vs w' hgets hroom => ?_,
    fun vs w' heof => ?_, ?_⟩
  · have hread : read "eof" Input.atEnd w = .ok _ _ :=
      read_eq_ok_iff.2 ⟨ho, (atEnd_eq hf).1, rfl⟩
    exact ⟨_, _, eof_eq_ok_iff.2 ⟨_, _, hread, rfl, rfl⟩⟩
  · obtain ⟨hflush, l, hl, rfl, hends⟩ := bytes_of_getsLine hgets hf
    obtain ⟨hline, hrest⟩ := readLine_eq hf hl hends
    rw [← dropReturn_codes] at hroom ⊢
    obtain ⟨r, h', hnew, harray, -⟩ := hroom.newArray
    have hread : read "readln" Input.readLine w = .ok _ _ :=
      read_eq_ok_iff.2 ⟨hflush, hline, rfl⟩
    refine ⟨r, { w with output := w.output.flush, input := w.input.readLine.2, heap := h' }, ?_,
      harray, hrest⟩
    simp only [Routine.run, bind, EStateM.bind, hread, newText, newArray_eq, hnew, pure,
      EStateM.pure]
  · obtain ⟨b, w1, hread, hvs, rfl⟩ := eof_eq_ok_iff.1 heof
    obtain ⟨-, -, rfl⟩ := read_eq_ok_iff.1 hread
    exact ⟨(atEnd_eq hf).2, by cases b <;> simp [hvs]⟩
  · have hvalue : ((Utf8.next? w.input.rest).map (·.1)).elim (-1) Utf8.codeOfChar = -1 ↔
        w.input.rest = [] := by
      cases hi : w.input.rest with
      | nil => simp [Utf8.next?_nil]
      | cons b bs =>
        obtain ⟨c, rest, hnext, -⟩ := Utf8.next?_cons b bs
        simp [hnext, codeOfChar_ne]
    simp only [eof_eq_ok_iff, getchar_eq_ok_iff hf, read_eq_ok_iff, (atEnd_eq hf).1]
    constructor
    · rintro ⟨-, b, -, ⟨hflush, hb, -⟩, hone, -⟩
      obtain rfl := Except.ok.inj hb
      refine ⟨_, hflush, ?_, rfl⟩
      rw [hvalue.2 (by simpa using hone)]
    · rintro ⟨-, hflush, hminus, -⟩
      refine ⟨_, _, _, ⟨hflush, rfl, rfl⟩, ?_, rfl⟩
      rw [if_pos]
      simpa using hvalue.1 (List.cons.inj hminus).1.symm

/-- Bytes that start a character and a line that ends before it does. -/
def brokenOff : World :=
  { (default : World) with
    heap := .empty 64, input := { rest := [0xE2, 0x82, 13, 10, 65] } }

theorem lines_agree_brokenOff : ∃ r w', Routine.readln.run "main" [] brokenOff = .ok [r] w' ∧
    w'.heap.array r = .ok [0xFFFD, 0xFFFD] ∧ w'.input.rest = [65] := by
  have hgets : GetsLine "main" brokenOff [0xFFFD, 0xFFFD, 13] _ :=
    .more [] rfl (by decide) (by decide) <| .more [] rfl (by decide) (by decide) <|
      .more [] rfl (by decide) (by decide) <| .stop [] rfl (.inl rfl)
  exact (lines_agree "main" [] rfl).2.1 _ _ hgets ⟨by decide, by decide⟩

end World

/-! ### Integers in text -/

namespace World

variable {w w' : World} {caller : String}

lemma exists_newText {cs : List Char} (hroom : w.heap.HasRoom cs.length) :
    ∃ r w', newText cs w = .ok r w' ∧ readText r w' = .ok cs w' ∧
      w'.heap.arrayLength r = .ok (Int32.ofNat cs.length) := by
  rw [← length_map (f := Utf8.codeOfChar)] at hroom ⊢
  obtain ⟨r, h', hnew, harray, hlength⟩ := hroom.newArray
  refine ⟨r, { w with heap := h' }, by rw [newText, newArray_eq, hnew], ?_, hlength⟩
  simp only [readText, inspect, bind, EStateM.bind, harray, pure, EStateM.pure, map_map]
  rw [show Utf8.charOfCode ∘ Utf8.codeOfChar = id from funext Utf8.charOfCode_codeOfChar, map_id]

lemma parseInt_of_array {r : Int32} {codes : List Int32} (h : w.heap.array r = .ok codes) :
    Routine.parseInt.run caller [r] w =
      .ok (Routine.parseResult (codes.map Utf8.charOfCode)) w := by
  simp only [Routine.run, Routine.firstArg, readText, inspect, bind, EStateM.bind, h, pure,
    EStateM.pure]

lemma array_of_readText {r : Int32} {cs : List Char} (h : readText r w = .ok cs w') :
    w' = w ∧ ∃ codes, w.heap.array r = .ok codes ∧ cs = codes.map Utf8.charOfCode := by
  simp only [readText, inspect, bind, EStateM.bind] at h
  cases harray : w.heap.array r with
  | error c => simp [harray] at h
  | ok codes =>
    simp only [harray, pure, EStateM.pure, EStateM.Result.ok.injEq] at h
    exact ⟨h.2.symm, codes, rfl, h.1.symm⟩

end World

/-- A text that spells a number, with white space around it or without. -/
def Text.Holds (cs : List Char) (v : Int) : Prop :=
  ∃ pre core post, cs = pre ++ core ++ post ∧ (∀ c ∈ pre ++ post, isBlank c = true) ∧
    Decimal.Spells core v

lemma parseResult_eq_iff (cs : List Char) (v : Int32) :
    Routine.parseResult cs = [v, 1] ↔ Text.Holds cs v.toInt := by
  have hread : Routine.parseResult cs = [v, 1] ↔ Decimal.int32? (Text.trim cs) = some v := by
    unfold Routine.parseResult
    cases Decimal.int32? (Text.trim cs) <;> simp
  rw [hread, Decimal.int32?_eq_some_iff]
  constructor
  · intro h
    obtain ⟨pre, post, hcs, hblank⟩ := Text.trim_decomposes cs
    exact ⟨pre, _, post, hcs, hblank, h⟩
  · rintro ⟨pre, core, post, rfl, hblank, h⟩
    obtain ⟨hne, hcore⟩ := h.not_blank
    rwa [Text.trim_eq hblank hne hcore]

namespace World

/-- Integers as text. The text of every word is read back as the word if there is room for it. The
text of an array of codes is read as a word and one just if it spells the word, with white space
around it or without; every other text is read as two zeros. -/
theorem integers_in_text (caller : String) :
    (∀ (v : Int32) (w : World), w.heap.HasRoom (Decimal.ofInt32 v).toList.length →
      ∃ r w', Routine.unparseInt.run caller [v] w = .ok [r] w' ∧
        Routine.parseInt.run caller [r] w' = .ok [v, 1] w') ∧
    ∀ (codes : List Int32) (r : Int32) (w : World), w.heap.array r = .ok codes →
      (∀ v, Routine.parseInt.run caller [r] w = .ok [v, 1] w ↔
        Text.Holds (codes.map Utf8.charOfCode) v.toInt) ∧
      ((¬∃ v : Int32, Text.Holds (codes.map Utf8.charOfCode) v.toInt) →
        Routine.parseInt.run caller [r] w = .ok [0, 0] w) := by
  refine ⟨fun v w hroom => ?_, fun codes r w harray => ?_⟩
  · obtain ⟨r, w', hnew, hread, -⟩ := exists_newText hroom
    refine ⟨r, w', ?_, ?_⟩
    · simp only [Routine.run, Routine.firstArg, bind, EStateM.bind, pure, EStateM.pure, hnew]
    · obtain ⟨-, codes, harray, hcs⟩ := array_of_readText hread
      have hholds : Text.Holds (Decimal.ofInt32 v).toList v.toInt :=
        ⟨[], _, [], (List.append_nil _).symm, by simp, Decimal.spells_toString v.toInt⟩
      rw [parseInt_of_array harray, ← hcs, (parseResult_eq_iff _ _).2 hholds]
  · rw [parseInt_of_array harray]
    refine ⟨fun v => ?_, fun hnone => ?_⟩
    · rw [← parseResult_eq_iff]
      simp
    · have hzero : ∀ cs, (∀ v, Routine.parseResult cs ≠ [v, 1]) →
          Routine.parseResult cs = [0, 0] := by
        intro cs h
        unfold Routine.parseResult at h ⊢
        cases hv : Decimal.int32? (Text.trim cs) with
        | none => rfl
        | some v => exact absurd (by rw [hv]) (h v)
      rw [hzero]
      exact fun v hv => hnone ⟨v, (parseResult_eq_iff _ _).1 hv⟩

theorem integers_in_text_least : ∃ r w', Routine.unparseInt.run "main" [-2147483648] brokenOff =
    .ok [r] w' ∧ Routine.parseInt.run "main" [r] w' = .ok [-2147483648, 1] w' :=
  (integers_in_text "main").1 _ _ ⟨by decide, by decide⟩

end World

end TreeMachine
