import TreeMachine.Proofs.Rows

/-!
# Arrays as values

An array is put into the heap as its length and its elements, and read back by going through the
words behind a reference. Sizes and addresses are words that wrap around. As long as the limit of
the heap is the address of a word, nothing that is accepted has wrapped around: what is put into the
heap is read back, and an array is read just if its length and all its words are there.
-/

open List

namespace TreeMachine.Heap

section

variable {h h' : Heap} {xs : List Int32} {r n : Int32}

lemma newArray_eq_ok_iff : h.newArray xs = .ok (r, h') ↔
    ∃ base, h.room (arraySize xs.length) = .ok base ∧ r = base + 4 ∧ h' = h.appendArray xs := by
  unfold newArray
  cases h.room (arraySize xs.length) with
  | error c => simp [bind, Except.bind]
  | ok base =>
    simp only [bind, Except.bind, pure, Except.pure, Except.ok.injEq, Prod.mk.injEq]
    grind

/-! ### Putting an array into the heap -/

lemma toInt_arraySize (k : Nat) : (arraySize k).toInt = (4 * ((k : Int) + 1)).bmod (2 ^ 32) := by
  rw [arraySize, Int32.toInt_mul, toInt_four, Int32.toInt_ofNat', Int.bmod_mul_bmod, Int.mul_comm]
  rfl

lemma toInt_arraySize_of_nonneg (hk : k < 2 ^ 30 - 1) (hpos : 0 ≤ (arraySize k).toInt) :
    (arraySize k).toInt = 4 * ((k : Int) + 1) := by
  rw [toInt_arraySize, Int.bmod_def] at hpos ⊢
  omega

lemma read_writeAll (h : Heap) (i : Nat) (vs : List Int32) (hin : i + vs.length ≤ h.words)
    (j : Nat) :
    (h.writeAll i vs).read j = if i ≤ j then vs[j - i]?.getD (h.read j) else h.read j := by
  induction vs generalizing h i with
  | nil => simp [writeAll, putWords]
  | cons v vs ih =>
    rw [length_cons] at hin
    rw [writeAll_cons, ih _ _ (by rw [words_write]; omega), read_write h (by omega)]
    rcases Nat.lt_trichotomy j i with hlt | rfl | hgt
    · rw [if_neg (by omega), if_neg (by omega), if_neg (by omega)]
    · simp
    · obtain ⟨k, rfl⟩ := Nat.exists_eq_add_of_lt hgt
      rw [if_pos (show i + 1 ≤ i + k + 1 by omega), if_neg (show ¬i + k + 1 = i by omega),
        if_pos (show i ≤ i + k + 1 by omega), show i + k + 1 - (i + 1) = k by omega,
        show i + k + 1 - i = k + 1 by omega, List.getElem?_cons_succ]

/-- If the limit is the address of a word, so are the words of a new array. -/
lemma fits_of_newArray (hlim : h.limit < 2 ^ 31) (hlen : xs.length < 2 ^ 30 - 1)
    (ha : h.newArray xs = .ok (r, h')) : (h.used : Int) + 4 * (xs.length + 1) < 2 ^ 31 := by
  obtain ⟨base, hroom, -, -⟩ := newArray_eq_ok_iff.1 ha
  obtain ⟨⟨hpos, -, hroom⟩, -⟩ := room_eq_ok_iff.1 hroom
  have hsize := toInt_arraySize_of_nonneg hlen hpos
  omega

variable (xs) in
lemma words_extend_arraySize (hfit : (h.used : Int) + 4 * (xs.length + 1) < 2 ^ 31)
    (ha : h.room (arraySize xs.length) = .ok base) :
    (h.extend (arraySize xs.length).toInt.toNat).words = h.words + (xs.length + 1) := by
  obtain ⟨⟨hpos, hdvd, hroom⟩, -⟩ := room_eq_ok_iff.1 ha
  have hsize := toInt_arraySize_of_nonneg (k := xs.length) (by omega) hpos
  have hwords := h.used_eq
  rw [words, used_extend h (by omega) (by omega)]
  omega

section

variable (hfit : (h.used : Int) + 4 * (xs.length + 1) < 2 ^ 31) (ha : h.newArray xs = .ok (r, h'))

include hfit ha

/-- A new array: its block is at the end of the heap, the length in the first word and the elements
after it, and what was there before is kept. -/
lemma words_of_newArray :
    r.toInt = h.used + 4 ∧ (h'.used : Int) = r.toInt + 4 * xs.length ∧
      h'.read h.words = Int32.ofNat xs.length ∧
      (∀ i x, xs[i]? = some x → h'.read (h.words + 1 + i) = x) ∧
      ∀ j < h.words, h'.read j = h.read j := by
  obtain ⟨base, hroom, rfl, rfl⟩ := newArray_eq_ok_iff.1 ha
  have hend := words_extend_arraySize xs hfit hroom
  obtain ⟨-, rfl⟩ := room_eq_ok_iff.1 hroom
  have hwords := h.used_eq
  have hgrown := (h.extend (arraySize xs.length).toInt.toNat).used_eq
  have hbase : (Int32.ofNat h.used).toInt = h.used := Int32.toInt_ofNat_of_lt (by omega)
  have href : (Int32.ofNat h.used + 4).toInt = h.used + 4 := by
    rw [Int32.toInt_add, hbase, toInt_four, Int.bmod_eq_of_le (by omega) (by omega)]
  have hread := read_writeAll (h.extend (arraySize xs.length).toInt.toNat) h.words
    (Int32.ofNat xs.length :: xs) (by rw [length_cons]; omega)
  rw [appendArray_eq]
  refine ⟨href, by rw [used_writeAll]; omega, ?_, fun i x hx => ?_, fun j hj => ?_⟩
  · rw [hread]
    simp
  · rw [hread, if_pos (by omega),
      show h.words + 1 + i - h.words = i + 1 by omega, List.getElem?_cons_succ, hx]
    rfl
  · rw [hread, if_neg (by omega), read_extend]

/-- A new array stands at its reference. -/
lemma arrayAt_of_newArray : h'.ArrayAt r (Int32.ofNat xs.length) := by
  obtain ⟨href, hused, hlength, -, -⟩ := words_of_newArray hfit ha
  have hwords := h.used_eq
  have hres := h.reserved
  have hint : (Int32.ofNat xs.length).toInt = xs.length := Int32.toInt_ofNat_of_lt (by omega)
  have hhi := Int32.toInt_lt r
  have hbase : (r - 4).toInt = h.used := by
    rw [Int32.toInt_sub, toInt_four, Int.bmod_eq_of_le (by omega) (by omega)]
    omega
  refine ⟨load_eq_ok_iff.2 ⟨⟨by omega, by omega, by omega⟩, ?_⟩, by omega, by omega⟩
  rw [show index (r - 4) = h.words by unfold index; omega]
  exact hlength

lemma load_of_newArray (hv : h.load a = .ok v) : h'.load a = .ok v := by
  obtain ⟨href, hused, -, -, hkept⟩ := words_of_newArray hfit ha
  obtain ⟨⟨hdvd, hlo, hhi⟩, rfl⟩ := load_eq_ok_iff.1 hv
  have hwords := h.used_eq
  refine load_eq_ok_iff.2 ⟨⟨hdvd, hlo, by omega⟩, hkept _ ?_⟩
  unfold index
  omega

end

/-! ### Reading an array -/

lemma mapM_eq_ok {α β ε : Type} {f : α → Except ε β} {g : α → β} {xs : List α}
    (hf : ∀ x ∈ xs, f x = .ok (g x)) : xs.mapM f = .ok (xs.map g) := by
  induction xs with
  | nil => rfl
  | cons x xs ih =>
    obtain ⟨hx, hxs⟩ := forall_mem_cons.1 hf
    rw [mapM_cons, hx, ih hxs]
    rfl

/-- An array whose length and words are there is read. -/
lemma array_of_arrayAt (hb : (h.used : Int) < 2 ^ 31) (ha : h.ArrayAt r n) :
    h.array r = .ok ((List.range n.toInt.toNat).map fun i =>
      h.read (index (r + Int32.ofNat i * 4))) := by
  have hneg : ¬n < 0 := by
    rw [neg_iff_toInt_neg]
    exact Int.not_lt.2 ha.nonneg
  have hinside : ¬r.toInt + n.toInt * 4 > h.used := by
    have := ha.inside
    omega
  unfold array arrayLength
  rw [ha.length]
  simp only [bind, Except.bind, hneg, hinside, if_false]
  refine mapM_eq_ok fun i hi => ?_
  exact load_of_accessible (ha.slot hb (mem_range.1 hi)).2

/-- Only such arrays are read. -/
lemma arrayAt_of_array (ha : h.array r = .ok xs) : ∃ n, h.ArrayAt r n := by
  obtain ⟨n, hn, ha⟩ := Except.bind_eq_ok ha
  by_cases hneg : n < 0
  · rw [if_pos hneg] at ha
    cases ha
  rw [if_neg hneg] at ha
  by_cases hpast : r.toInt + n.toInt * 4 > h.used
  · simp only [bind, Except.bind, hpast, if_true] at ha
    cases ha
  rw [neg_iff_toInt_neg] at hneg
  exact ⟨n, hn, by omega, by omega⟩

lemma words_of_array (hb : (h.used : Int) < 2 ^ 31) (ha : h.ArrayAt r n)
    (hxs : h.array r = .ok xs) :
    (xs.length : Int) = n.toInt ∧ ∀ (i : Nat) x, xs[i]? = some x →
        ∃ a : Int32, a.toInt = r.toInt + 4 * i ∧ h.load a = .ok x := by
  rw [array_of_arrayAt hb ha] at hxs
  obtain rfl := Except.ok.inj hxs
  have hpos := ha.nonneg
  refine ⟨by rw [length_map, length_range]; omega, fun i x hx => ?_⟩
  obtain ⟨hlt, rfl⟩ := List.getElem?_eq_some_iff.1 hx
  rw [length_map, length_range] at hlt
  obtain ⟨hslot, hacc⟩ := ha.slot hb hlt
  refine ⟨_, hslot, ?_⟩
  rw [getElem_map, getElem_range]
  exact load_of_accessible hacc

end

lemma array_of_newArray {h h' : Heap} {xs : List Int32}
    (hfit : (h.used : Int) + 4 * (xs.length + 1) < 2 ^ 31) (ha : h.newArray xs = .ok (r, h')) :
    h'.array r = .ok xs := by
  have hat := arrayAt_of_newArray hfit ha
  obtain ⟨href, hused, -, helements, -⟩ := words_of_newArray hfit ha
  have hwords := h.used_eq
  have hb' : (h'.used : Int) < 2 ^ 31 := by omega
  have hint : (Int32.ofNat xs.length).toInt = xs.length := Int32.toInt_ofNat_of_lt (by omega)
  rw [array_of_arrayAt hb' hat, hint, Int.toNat_natCast]
  refine congrArg Except.ok (ext_getElem (by simp) fun i hi hi' => ?_)
  rw [getElem_map, getElem_range]
  obtain ⟨hslot, -⟩ := hat.slot hb' (i := i) (by omega)
  rw [show index (r + Int32.ofNat i * 4) = h.words + 1 + i by unfold index; omega]
  exact helements i _ (List.getElem?_eq_getElem hi')

end TreeMachine.Heap

namespace TreeMachine.World

open Heap

lemma newArray_eq (xs : List Int32) (w : World) :
    newArray xs w = match w.heap.newArray xs with
      | .ok e => .ok e.1 { w with heap := e.2 }
      | .error c => .error c w := by
  unfold newArray Heap.newArray
  simp only [inspect, bind, EStateM.bind, Except.bind]
  cases w.heap.room (arraySize xs.length) with
  | error c => rfl
  | ok base => simp only [modify_eq, pure, EStateM.pure, Except.pure]

/-- Arrays in the heap. A list of words is put there or refused; if it is refused nothing changes,
and otherwise its length and its words are read back and no word that was there before has changed.
In every heap whose limit is the address of a word an array is read just if its length can be read,
is not negative and does not reach past the end of the heap; then its words are the ones that stand
there. -/
theorem stored_arrays {w : World} (hlim : w.heap.limit < 2 ^ 31) :
    (∀ xs : List Int32, xs.length < 2 ^ 30 - 1 →
      (∃ c, newArray xs w = .error c w) ∨
        ∃ r w', newArray xs w = .ok r w' ∧
          (∃ n, w'.heap.arrayLength r = .ok n ∧ n.toInt = xs.length) ∧
          w'.heap.array r = .ok xs ∧
          ∀ a v, w.heap.load a = .ok v → w'.heap.load a = .ok v) ∧
      ∀ r, ((∃ xs, w.heap.array r = .ok xs) ↔ ∃ n, w.heap.load (r - 4) = .ok n ∧
          0 ≤ n.toInt ∧ r.toInt + 4 * n.toInt ≤ w.heap.used) ∧
        ∀ xs n, w.heap.array r = .ok xs → w.heap.load (r - 4) = .ok n →
          (xs.length : Int) = n.toInt ∧ ∀ (i : Nat) x, xs[i]? = some x →
            ∃ a : Int32, a.toInt = r.toInt + 4 * i ∧ w.heap.load a = .ok x := by
  have hb := w.heap.used_lt hlim
  refine ⟨fun xs hlen => ?_, fun r => ⟨⟨?_, ?_⟩, fun xs n hxs hn => ?_⟩⟩
  · rw [newArray_eq]
    cases ha : w.heap.newArray xs with
    | error c => exact .inl ⟨c, rfl⟩
    | ok e =>
      obtain ⟨r, h'⟩ := e
      have hfit := fits_of_newArray hlim hlen ha
      refine .inr ⟨r, { w with heap := h' }, rfl,
        ⟨_, (arrayAt_of_newArray hfit ha).length, Int32.toInt_ofNat_of_lt (by omega)⟩,
        array_of_newArray hfit ha, fun a v hv => load_of_newArray hfit ha hv⟩
  · rintro ⟨xs, hxs⟩
    obtain ⟨n, hat⟩ := arrayAt_of_array hxs
    exact ⟨n, hat.length, hat.nonneg, hat.inside⟩
  · rintro ⟨n, hn, hpos, hinside⟩
    exact ⟨_, array_of_arrayAt hb ⟨hn, hpos, hinside⟩⟩
  · obtain ⟨n', hat⟩ := arrayAt_of_array hxs
    obtain rfl : n = n' := Except.ok.inj (hn.symm.trans hat.length)
    exact words_of_array hb hat hxs

/-- In a heap of six words a second array is refused. The reference to the first one is good,
and so is one to its second element: the first element is then taken for the length. -/
theorem stored_arrays_six : ∃ w w' : World, w.heap = Heap.empty 24 ∧
    newArray [1, 9, 5] w = .ok 8 w' ∧ w'.heap.array 8 = .ok [1, 9, 5] ∧
    w'.heap.array 12 = .ok [9] ∧ (∃ c, newArray [4, 4] w' = .error c w') ∧
    ∀ xs, w'.heap.array 16 ≠ .ok xs := by
  let w : World := { (default : World) with heap := .empty 24 }
  have hrun : ((Heap.empty 24).newArray [1, 9, 5]).toOption.map (fun e =>
      decide (e.1 = 8 ∧ (e.2.array 12).toOption = some [9] ∧ (e.2.newArray [4, 4]).toOption = none ∧
        (e.2.load 12).toOption = some 9 ∧ e.2.used = 20 ∧ e.2.limit = 24)) = some true := by
    decide +kernel
  obtain ⟨⟨r, h⟩, hnew, hrun⟩ := Except.map_eq_some.1 hrun
  obtain ⟨rfl, hsecond, hfull, hlength, hused, hlimit⟩ := of_decide_eq_true hrun
  have hput : newArray [1, 9, 5] w = .ok 8 { w with heap := h } := by
    rw [newArray_eq]
    simp only [w, hnew]
  obtain ⟨hfirst, -⟩ := stored_arrays (w := w) (by decide)
  obtain ⟨hputs, hreads⟩ := stored_arrays (w := { w with heap := h }) (by rw [hlimit]; decide)
  refine ⟨w, { w with heap := h }, rfl, hput, ?_, Except.eq_ok_of_toOption hsecond, ?_,
    fun xs hxs => ?_⟩
  · rcases hfirst [1, 9, 5] (by decide) with ⟨c, hc⟩ | ⟨r, w', hok, -, harray, -⟩
    · rw [hput] at hc
      cases hc
    · rw [hput] at hok
      cases hok
      exact harray
  · rcases hputs [4, 4] (by decide) with hc | ⟨r, w', hok, -⟩
    · exact hc
    · rw [newArray_eq] at hok
      cases hn : h.newArray [4, 4] with
      | error c => simp only [hn] at hok; cases hok
      | ok e => rw [hn] at hfull; cases hfull
  · obtain ⟨n, hn, -, hinside⟩ := (hreads 16).1.1 ⟨xs, hxs⟩
    obtain rfl : 9 = n := Except.ok.inj ((Except.eq_ok_of_toOption hlength).symm.trans hn)
    have hwide : (16 : Int32).toInt + 4 * (9 : Int32).toInt = 52 := rfl
    have hinside : (16 : Int32).toInt + 4 * (9 : Int32).toInt ≤ h.used := hinside
    have hused : h.used = 20 := hused
    omega

end TreeMachine.World
