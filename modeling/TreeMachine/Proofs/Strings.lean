import TreeMachine.Proofs.Texts

/-!
# Strings

A string in code becomes an array that is allocated and filled word by word; the library puts texts
into arrays of its own accord. Both leave the codes of the characters in the heap, and writing
them gives the bytes of the text.
-/

open List

namespace TreeMachine.Structured

open Compile (elementMoves literalCode malloc plus)

section

variable {cx : Context} {ρ : Env} {base : String} {b : Int32}

lemma eval_const (v : Int32) : (Expr.const v).eval cx ρ = .ok (.value v) ρ := by
  rw [Expr.eval]
  rfl

lemma eval_offset (h : ρ.regs.get? base = some b) (d : Int32) :
    (plus (.temp base) (.const d)).eval cx ρ = .ok (.value (b + d)) ρ := by
  simp only [plus, Expr.eval, Eval.readRegister, h, Eval.take, Word.binop, bind, EStateM.bind, pure,
    EStateM.pure]

lemma resume_elementMoves (hlax : cx.mode.lax = false) {all : List Stmt} {n i k : Nat}
    {codes : List Int32} (hb : ρ.regs.get? base = some b) (hk : b.toInt = 4 * k)
    (hin : k + 1 + i + codes.length ≤ ρ.world.heap.words)
      (hsmall : 4 * ρ.world.heap.words < 2 ^ 31) :
    Stmt.resume cx all n (elementMoves (.temp base) i (codes.map .const)) ρ = .ok ()
      { ρ with world := { ρ.world with heap := ρ.world.heap.writeAll (k + 1 + i) codes } } := by
  induction codes generalizing ρ i with
  | nil => rfl
  | cons v codes ih =>
    rw [length_cons] at hin
    have hi : (Int32.ofNat (i + 1)).toInt = i + 1 := Int32.toInt_ofNat_of_lt (by omega)
    have haddr : (b + Int32.ofNat (i + 1) * 4).toInt = 4 * (k + 1 + i : Nat) := by
      rw [Int32.toInt_add, Int32.toInt_mul, Heap.toInt_four, hi, hk, Int.add_bmod_bmod,
        Int.bmod_eq_of_le (by omega) (by omega)]
      omega
    have hacc : ρ.world.heap.Accessible (b + Int32.ofNat (i + 1) * 4) :=
      ⟨by omega, by omega, by rw [Heap.used_eq]; omega⟩
    have hindex : Heap.index (b + Int32.ofNat (i + 1) * 4) = k + 1 + i := by
      unfold Heap.index
      omega
    rw [map_cons, elementMoves, resume_ok (eval_storeWord hlax (eval_offset hb _) rfl
      (eval_const v) rfl hacc),
      hindex]
    refine ih (ρ := { ρ with world := { ρ.world with heap := ρ.world.heap.write (k + 1 + i) v } })
      hb
      ?_ ?_
    · show _ ≤ (ρ.world.heap.write (k + 1 + i) v).words
      rw [Heap.words_write]
      omega
    · show 4 * (ρ.world.heap.write (k + 1 + i) v).words < 2 ^ 31
      rwa [Heap.words_write]

lemma evalAll_const (v : Int32) : Expr.evalAll cx [.const v] ρ = .ok [.value v] ρ := by
  simp only [Expr.evalAll, Expr.eval, bind, EStateM.bind, pure, EStateM.pure]

/-- The code of an array of constants leaves it in the heap. -/
lemma eval_literal (base : String) (A : Allocates cx) (hlax : cx.mode.lax = false)
    (hroom : ρ.world.heap.HasRoom codes.length) : ∃ r ρ',
    (Expr.eseq (literalCode (.temp base) (codes.map .const)) (plus (.temp base) Compile.word)).eval
        cx ρ = .ok (.value r) ρ' ∧ ρ.world.heap.newArray codes = .ok (r, ρ'.world.heap) ∧
      ρ'.world = { ρ.world with heap := ρ'.world.heap } := by
  obtain ⟨r, h', hnew, -⟩ := hroom.newArray
  obtain ⟨addr, haddr, rfl, rfl⟩ := Heap.newArray_eq_ok_iff.1 hnew
  have hsmall := hroom.addressable
  have hres := ρ.world.heap.reserved
  have hwords := Heap.words_extend_arraySize codes (by omega) haddr
  obtain ⟨-, rfl⟩ := Heap.room_eq_ok_iff.1 haddr
  have hused := ρ.world.heap.used_eq
  have hbase : (Int32.ofNat ρ.world.heap.used).toInt = 4 * ρ.world.heap.words :=
    (Int32.toInt_ofNat_of_lt (by omega)).trans (by omega)
  -- The heap that the words are stored into.
  obtain ⟨h, hh⟩ : ∃ h, h = ρ.world.heap.extend (Heap.arraySize codes.length).toInt.toNat :=
    ⟨_, rfl⟩
  rw [← hh] at hwords
  have hend := h.used_eq
  have hacc : h.Accessible (Int32.ofNat ρ.world.heap.used) := ⟨by omega, by omega, by omega⟩
  have hindex : Heap.index (Int32.ofNat ρ.world.heap.used) = ρ.world.heap.words := by
    unfold Heap.index
    omega
  have hB := Registers.get?_set_self (ρ.regs.setAll retReg 1 [Int32.ofNat ρ.world.heap.used]) base
    (Int32.ofNat ρ.world.heap.used)
  have hseq : (literalCode (.temp base) (codes.map .const)).eval cx ρ = .ok ()
      { regs := (ρ.regs.setAll retReg 1 [Int32.ofNat ρ.world.heap.used]).set base
          (Int32.ofNat ρ.world.heap.used)
        world := { ρ.world with heap := ρ.world.heap.appendArray codes } } := by
    rw [literalCode, length_map,
      show Int32.ofNat (codes.length + 1) * 4 = Heap.arraySize codes.length from rfl, eval_seq,
      resume_ok (eval_moveTemp (word_malloc_of_room A (evalAll_const _) haddr)), ← hh,
      resume_ok (eval_storeWord hlax (eval_temp hB) rfl (eval_const _) rfl hacc), hindex,
      resume_elementMoves hlax hB hbase]
    · rw [Heap.appendArray_eq, ← hh, Heap.writeAll_cons, Nat.add_zero]
    · show _ ≤ (h.write _ _).words
      rw [Heap.words_write]
      omega
    · show 4 * (h.write _ _).words < 2 ^ 31
      rw [Heap.words_write]
      omega
  rw [Expr.eval, bind_ok hseq]
  refine ⟨_, _, eval_reference hB, ?_, ?_⟩
  · rw [hnew]
  · dsimp only

end

end TreeMachine.Structured

namespace TreeMachine.Machine

open Linear Structured

/-- Calling `print` with an array writes the bytes of its text. -/
lemma call_print {u : CodeUnit} (h : u.lookup "print" = none) (mode : Mode)
    (maxDepth fuel depth : Nat) (caller : String) {r : Int32} {codes : List Int32} {w : World}
    (harray : w.heap.array r = .ok codes) :
    (u.call mode maxDepth fuel depth caller "print" [r] w =
        .ok [] { w with
          output := w.output.write (String.ofList (codes.map Utf8.charOfCode)).toUTF8 } ∧
      (w.output.write (String.ofList (codes.map Utf8.charOfCode)).toUTF8).failure = none) ∨
    ∃ c, u.call mode maxDepth fuel depth caller "print" [r] w =
        .error (.fault c) { w with
          output := w.output.write (String.ofList (codes.map Utf8.charOfCode)).toUTF8 } ∧
      (w.output.write (String.ofList (codes.map Utf8.charOfCode)).toUTF8).failure ≠ none := by
  have hr : Routine.ofName? "print" = some .print := by decide
  rw [call_of_none _ _ _ _ _ h]
  simp only [callRoutine, hr, Routine.run, Routine.runPrint, Routine.firstArg, World.readText,
    World.inspect, bind, EStateM.bind, pure, EStateM.pure, harray]
  rcases World.write_cases "print" (String.ofList (codes.map Utf8.charOfCode)).toUTF8 w with
    ⟨hw, hok⟩ | ⟨c, hw, hbad⟩
  · exact .inl ⟨by simp only [hw], hok⟩
  · exact .inr ⟨c, by simp only [hw], hbad⟩

/-- Strings survive the heap. Where a program that defines neither `malloc` nor `print` comes to
a string and the heap has room for it, the run goes on behind the string with a reference to an
array: its length is the number of characters, and nothing but the heap has changed. Calling `print`
with it adds just the bytes of the string to what output has taken; or the writer refuses, and a
first part of them is added. And a byte string that the library puts into
the heap is read back with each byte outside a character replaced, and then does not change any
more. -/
theorem strings_in_heap {p q : Tree.Program} {u : CodeUnit} (hq : p.resolve = .ok q)
    (hu : CodeUnit.ofTree q = .ok u) (hmalloc : ∀ f ∈ q.functions, f.name ≠ "malloc")
    (hprint : ∀ f ∈ q.functions, f.name ≠ "print") {M : Setup}
    (hp : Program.ofUnit u = .ok M.program) :
    (∀ {scopes trap span str c x c' s a},
      (Compile.expr scopes trap (.string span str)).value c = .ok (x, c') →
      Before M u s (.expr x) a → s.world.heap.HasRoom str.length → ∃ r ρ t,
        Reaches M s (s.stand (a + extent (itemsOfExpr x)) ρ (s.operands.push (.value r)) t) ∧
        ρ.world = { s.world with heap := ρ.world.heap } ∧
        (∃ n : Int32, n.toInt = str.length ∧
          ∀ caller, Routine.lengthInt.run caller [r] ρ.world = .ok [n] ρ.world) ∧
        ∀ mode fuel depth caller, ∃ w, w = { ρ.world with output := w.output } ∧
          ((u.call mode M.maxDepth fuel depth caller "print" [r] ρ.world = .ok [] w ∧
              w.output.failure = none ∧
              w.output.taken = ρ.world.output.taken ++ str.toUTF8.data.toList) ∨
            (∃ c, u.call mode M.maxDepth fuel depth caller "print" [r] ρ.world =
                .error (.fault c) w) ∧ w.output.failure ≠ none ∧
              w.output.taken <+: ρ.world.output.taken ++ str.toUTF8.data.toList) ∧
          (ρ.world.output.sink.writer.Accepts → ρ.world.output.failure = none →
            w.output.failure = none)) ∧
    ∀ (bs : List UInt8) (w : World), w.heap.HasRoom (Utf8.decode bs).length → ∃ r w' cs,
      World.newText (Utf8.decode bs) w = .ok r w' ∧ World.readText r w' = .ok cs w' ∧
        Utf8.Repaired bs (Utf8.encode cs) ∧ Utf8.decode (Utf8.encode cs) = cs := by
  refine ⟨fun {scopes trap span str c x c' s a} hx hbefore hroom => ?_, fun bs w hroom => ?_⟩
  · have hconf := confined_of_ofTree hq hu
    have hlookup := lookup_eq_none hq hu hmalloc
    cases (Compile.byRules_expr scopes trap _).value hx with
    | flag hl => exact hl.elim
    | string =>
      have hcodes : (str.toList.map fun ch => Expr.const (Utf8.codeOfChar ch)) =
          (str.toList.map Utf8.codeOfChar).map .const := by rw [map_map]; rfl
      have hlength : (str.toList.map Utf8.codeOfChar).length = str.length := by
        rw [length_map, String.length_toList]
      rw [← hlength] at hroom
      obtain ⟨r, ρ, heval, hnew, hworld⟩ := eval_literal (numbered "aB" (c.temps + 1))
        (allocates_of_lookup hlookup 0) rfl (ρ := s.env) hroom
      rw [← hcodes] at heval
      obtain ⟨t, hreach⟩ := hbefore.pushes hp hconf (fun l => by simp) heval
      obtain ⟨r', h', hnew', harray, hlen⟩ := hroom.newArray
      obtain ⟨rfl, rfl⟩ := Prod.mk.inj (Except.ok.inj (hnew'.symm.trans hnew))
      refine ⟨r', ρ, t, hreach, hworld, ⟨Int32.ofNat str.length, ?_, fun caller => ?_⟩,
        fun mode fuel depth caller => ?_⟩
      · have := hroom.addressable
        exact Int32.toInt_ofNat_of_lt (by omega)
      · rw [hlength] at hlen
        simp only [Routine.run, Routine.firstArg, World.inspect, bind, EStateM.bind, pure,
          EStateM.pure, hlen]
      · have htext : (str.toList.map Utf8.codeOfChar).map Utf8.charOfCode = str.toList := by
          rw [map_map, show Utf8.charOfCode ∘ Utf8.codeOfChar = id from
            funext Utf8.charOfCode_codeOfChar, map_id]
        have hprints := call_print (lookup_eq_none hq hu hprint) mode M.maxDepth fuel depth caller
          harray
        rw [htext, String.ofList_toList] at hprints
        have htakes := ρ.world.output.takes_write str.toUTF8
        obtain ⟨htaken, hwhole⟩ := htakes.keeps ⟨prefix_rfl, fun _ => rfl⟩
        refine ⟨{ ρ.world with output := ρ.world.output.write str.toUTF8 }, rfl, ?_, htakes.accepts⟩
        rcases hprints with ⟨hcall, hok⟩ | ⟨c, hcall, hbad⟩
        · exact .inl ⟨hcall, hok, hwhole hok⟩
        · exact .inr ⟨⟨c, hcall⟩, hbad, htaken⟩
  · obtain ⟨r, w', hnew, hread, -⟩ := World.exists_newText hroom
    exact ⟨r, w', _, hnew, hread, Utf8.repaired_decode bs, Utf8.decode_encode _⟩

/-- A program whose `main` returns a string of one character, two bytes long. -/
def greeting : Tree.Program where
  name := "greeting"
  functions := [{
    name := "main", returns := [.array .int],
    body := some { stmts := [.ret {} [.string {} "é"]] } }]

def greetingText : Expr :=
  .eseq (Compile.literalCode (.temp "aB.1") [.const 0xE9])
    (Compile.plus (.temp "aB.1") Compile.word)

def greeted : CodeUnit where
  name := "greeting"
  functions := [{ name := "main", params := [], body := .seq [.seq [.ret [greetingText]]] }]

lemma code_of_greeting : (greeting.resolve >>= CodeUnit.ofTree) = .ok greeted := by cbv

/-- The string has one character, and printing it writes its two bytes. -/
theorem strings_in_heap_greeting : ∃ m s r ρ t w, ofUnit? (some greeted) {} = .ok m ∧
    m.start "main" 0 [] = .ok s ∧
    Reaches m.setup s (s.stand 20 ρ (s.operands.push (.value r)) t) ∧
    Routine.lengthInt.run "main" [r] ρ.world = .ok [1] ρ.world ∧
    greeted.call ⟨.fills, false⟩ m.setup.maxDepth 0 0 "main" "print" [r] ρ.world = .ok [] w ∧
    w.output.taken = [0xC3, 0xA9] := by
  obtain ⟨q, hq, hu⟩ := Except.bind_eq_ok code_of_greeting
  have hrun : ((ofUnit? (some greeted) {}).toOption.bind fun m =>
    (m.start "main" 0 []).toOption.map fun s =>
      decide (m.setup.program.entry "main" = some ⟨"main", 0, 23⟩ ∧
        s.frame.fn = ⟨"main", 0, 23⟩ ∧ s.frame.ip = 0 ∧
        s.world.heap = .empty 33554432)) = some true := by
    decide +kernel
  have hnames : (greeting.resolve.toOption.map fun q =>
      decide (∀ f ∈ q.functions, f.name ≠ "malloc" ∧ f.name ≠ "print")) = some true := by
    decide +kernel
  rw [hq] at hnames
  have hnames := of_decide_eq_true (Option.some.inj hnames)
  obtain ⟨m, hm, hrun⟩ := Except.bind_eq_some.1 hrun
  obtain ⟨s, hs, hrun⟩ := Except.map_eq_some.1 hrun
  obtain ⟨hentry, hfn, hip, hheap⟩ := of_decide_eq_true hrun
  have hp := program_of_ofUnit? hm
  have hmem : greeted.functions[0] ∈ greeted.functions := getElem_mem _
  have hh := holds_of_entry hm hmem hentry
  have hstart : s.frame.fn.start = 0 := by rw [hfn]
  have hbefore : Before m.setup greeted s (.expr greetingText) 0 := by
    refine ⟨⟨_, hmem, hfn ▸ hh, ?_, by simp⟩, hip, ?_⟩
    · rw [hstart]
      exact .part [] _ rfl (.part [] _ rfl (.part [] _ rfl (.self _ 0)))
    · rw [hstart]
      omega
  have hroom : s.world.heap.HasRoom "é".length := by
    rw [hheap]
    exact ⟨by decide, by decide⟩
  have houtput : s.world.output = {} := by
    obtain ⟨p, -, hm⟩ := Except.bind_eq_ok hm
    rw [world_of_start hs]
    exact (of_ofProgram hm).2.2
  have hcode : (Compile.expr [] "" (.string {} "é")).value {} =
      .ok (greetingText, { temps := 1 }) := rfl
  obtain ⟨r, ρ, t, hreach, hworld, ⟨n, hn, hlength⟩, hprints⟩ :=
    (strings_in_heap hq hu (fun f hf => (hnames f hf).1) (fun f hf => (hnames f hf).2) hp).1
      hcode hbefore hroom
  obtain rfl : n = 1 := Int32.toInt_inj.1 hn
  have hempty : ρ.world.output = {} := by rw [hworld, houtput]
  obtain ⟨w, -, hcall, haccepts⟩ := hprints ⟨.fills, false⟩ 0 0 "main"
  rw [hempty] at hcall haccepts
  rcases hcall with ⟨hcall, -, htaken⟩ | ⟨-, hbad, -⟩
  · exact ⟨m, s, r, ρ, t, w, hm, hs, hreach, hlength "main", hcall, htaken⟩
  · exact absurd (haccepts (fun _ _ _ => rfl) rfl) hbad

end TreeMachine.Machine
