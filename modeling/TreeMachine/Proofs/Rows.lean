import TreeMachine.Proofs.Checks
import TreeMachine.Proofs.SizedArrays
import TreeMachine.Proofs.TreeEvaluation

/-!
# Arrays of rows

An array with more than one dimension is made of arrays: its elements are references to rows, and
so on down to the last dimension, whose elements are zero. Code makes them one after the other
and stores each into the array above it.
-/

open List

namespace TreeMachine.Heap

/-- A length whose bytes, with those of the length word, can be counted by a word. -/
def Askable (n : Int32) : Prop :=
  0 ≤ n.toInt ∧ (n.toInt + 1) * 4 < 2 ^ 31

/-- The bytes that an array of given dimensions takes, those of its rows included. -/
def bytesOf : List Int32 → Int
  | [] => 0
  | n :: ns => 4 * (n.toInt + 1) + n.toInt * bytesOf ns

/-- An array of given dimensions, with the blocks of all arrays it is made of. An element of the
last dimension has no dimension left: it is zero and has no block. -/
def Shaped (h : Heap) : List Int32 → Int32 → List (Int32 × Int32) → Prop
  | [], v, bs => v = 0 ∧ bs = []
  | n :: ns, ref, bs => h.ArrayAt ref n ∧ ∃ rows blocks, rows.length = n.toInt.toNat ∧
    (∀ i r, rows[i]? = some r → h.load (ref + Int32.ofNat i * 4) = .ok r) ∧
    List.Forall₂ (h.Shaped ns) rows blocks ∧ bs = (ref - 4, requested n) :: blocks.flatten

/-- What making an array of given dimensions does to the heap: blocks are added at its end that
have no byte in common, and what was there before is kept. -/
structure Makes (h h' : Heap) (ns : List Int32) (ref : Int32) (bs : List (Int32 × Int32)) :
    Prop where
  shaped : h'.Shaped ns ref bs
  apart : bs.Pairwise Apart
  fresh : ∀ b ∈ bs, (h.used : Int) ≤ b.1.toInt ∧ b.1.toInt + b.2.toInt ≤ h'.used
  kept : ∀ {a : Int32}, h.Accessible a → h'.load a = h.load a
  used : (h'.used : Int) = h.used + bytesOf ns

def Covers (bs : List (Int32 × Int32)) (a : Int32) : Prop :=
  ∃ b ∈ bs, b.1.toInt ≤ a.toInt ∧ a.toInt < b.1.toInt + b.2.toInt

section

variable {h h' : Heap} {n ref : Int32} {ns : List Int32} {bs : List (Int32 × Int32)}

lemma Askable.toInt_requested (hn : Askable n) : (requested n).toInt = 4 * (n.toInt + 1) := by
  obtain ⟨hlo, hhi⟩ := hn
  rw [Heap.toInt_requested, Int.bmod_eq_of_le (by omega) (by omega)]

lemma bytesOf_nonneg (hns : ∀ n ∈ ns, Askable n) : 0 ≤ bytesOf ns := by
  induction ns with
  | nil => exact Int.le_refl 0
  | cons n ns ih =>
    obtain ⟨⟨hn, -⟩, hns⟩ := forall_mem_cons.1 hns
    have := Int.mul_nonneg hn (ih hns)
    rw [bytesOf]
    omega

/-! ### Addresses of an array -/

lemma ArrayAt.toInt_base (ha : h.ArrayAt ref n) (hb : (h.used : Int) < 2 ^ 31) :
    (ref - 4).toInt = ref.toInt - 4 := by
  have haligned := ha.aligned hb
  have hhi := Int32.toInt_lt ref
  rw [Int32.toInt_sub, toInt_four, Int.bmod_eq_of_le (by omega) (by omega)]

lemma ArrayAt.slot (ha : h.ArrayAt ref n) (hb : (h.used : Int) < 2 ^ 31) (hi : i < n.toInt.toNat) :
    (ref + Int32.ofNat i * 4).toInt = ref.toInt + 4 * i ∧
      h.Accessible (ref + Int32.ofNat i * 4) := by
  have hn := Int32.toInt_lt n
  have hint : (Int32.ofNat i).toInt = i := Int32.toInt_ofNat_of_lt (by omega)
  have helement := ha.element hb (k := Int32.ofNat i) (by omega)
  rw [Int32.mul_comm] at helement
  rwa [hint] at helement

lemma forall₂_shaped {rows blocks} (hrow : ∀ {r cs}, h.Shaped ns r cs →
      (∀ a, h.Accessible a → Covers cs a → h'.load a = h.load a) → h'.Shaped ns r cs)
    (hrows : List.Forall₂ (h.Shaped ns) rows blocks)
    (hkept : ∀ a, h.Accessible a → Covers blocks.flatten a → h'.load a = h.load a) :
    List.Forall₂ (h'.Shaped ns) rows blocks := by
  induction hrows with
  | nil => exact .nil
  | cons hr _ ih =>
    rw [flatten_cons] at hkept
    refine .cons (hrow hr fun a ha hc => hkept a ha ?_) (ih fun a ha hc => hkept a ha ?_)
    · obtain ⟨b, hb, hcover⟩ := hc
      exact ⟨b, mem_append_left _ hb, hcover⟩
    · obtain ⟨b, hb, hcover⟩ := hc
      exact ⟨b, mem_append_right _ hb, hcover⟩

lemma Shaped.frame (hb : (h.used : Int) < 2 ^ 31) (hused : h.used ≤ h'.used)
    (hns : ∀ n ∈ ns, Askable n)
    (hs : h.Shaped ns ref bs)
    (hkept : ∀ a, h.Accessible a → Covers bs a → h'.load a = h.load a) :
    h'.Shaped ns ref bs := by
  induction ns generalizing ref bs with
  | nil => exact hs
  | cons n ns ih =>
    obtain ⟨hn, hns⟩ := forall_mem_cons.1 hns
    obtain ⟨ha, rows, blocks, hlen, hload, hrows, rfl⟩ := hs
    have hbase := ha.toInt_base hb
    have hsize := hn.toInt_requested
    have hnonneg := hn.1
    have hown : ∀ {a v : Int32}, h.load a = .ok v → ref.toInt - 4 ≤ a.toInt →
        a.toInt < ref.toInt + 4 * n.toInt → h'.load a = .ok v := fun {a v} hv hlo hhi => by
      rw [← hv]
      exact hkept a (load_eq_ok_iff.1 hv).1
        ⟨_, mem_cons_self, by simp only; omega, by simp only; omega⟩
    have hinside := ha.inside
    refine ⟨⟨hown ha.length (by omega) (by omega), ha.nonneg, by omega⟩, rows, blocks, hlen,
      fun i r hr => ?_, ?_, rfl⟩
    · obtain ⟨hi, -⟩ := List.getElem?_eq_some_iff.1 hr
      obtain ⟨haddr, -⟩ := ha.slot hb (i := i) (by omega)
      exact hown (hload i r hr) (by omega) (by omega)
    · refine forall₂_shaped (ih hns) hrows fun a ha hc => ?_
      obtain ⟨b, hb, hcover⟩ := hc
      exact hkept a ha ⟨b, mem_cons_of_mem _ hb, hcover⟩

end

/-! ### Filling an array -/

/-- An array of `n` rows that has been given some of them. -/
structure Filling (h h' : Heap) (n : Int32) (ns : List Int32) (ref : Int32) (rows : List Int32)
    (blocks : List (List (Int32 × Int32))) : Prop where
  array : h'.ArrayAt ref n
  start : ref.toInt = h.used + 4
  elements : ∀ i r, rows[i]? = some r → h'.load (ref + Int32.ofNat i * 4) = .ok r
  shaped : List.Forall₂ (h'.Shaped ns) rows blocks
  apart : blocks.flatten.Pairwise Apart
  fresh : ∀ b ∈ blocks.flatten,
    h.used + 4 * (n.toInt + 1) ≤ b.1.toInt ∧ b.1.toInt + b.2.toInt ≤ h'.used
  kept : ∀ {a : Int32}, h.Accessible a → h'.load a = h.load a
  used : (h'.used : Int) = h.used + 4 * (n.toInt + 1) + rows.length * bytesOf ns
  limit : h'.limit = h.limit
  small : h'.limit < 2 ^ 31

section

variable {h h1 h2 : Heap} {n ref r : Int32} {ns rows : List Int32} {bs : List (Int32 × Int32)}
  {blocks : List (List (Int32 × Int32))}

lemma Filling.used_lt (hfill : Filling h h1 n ns ref rows blocks) : (h1.used : Int) < 2 ^ 31 :=
  h1.used_lt hfill.small

lemma Filling.makes (hfill : Filling h h1 n ns ref rows blocks) (hn : Askable n)
    (hlen : rows.length = n.toInt.toNat) :
    h.Makes h1 (n :: ns) ref ((ref - 4, requested n) :: blocks.flatten) := by
  have hbase := hfill.array.toInt_base hfill.used_lt
  have hsize := hn.toInt_requested
  have hstart := hfill.start
  have hinside := hfill.array.inside
  have hnonneg := hn.1
  refine ⟨⟨hfill.array, rows, blocks, hlen, hfill.elements, hfill.shaped, rfl⟩,
    pairwise_cons.2 ⟨fun b hb => .inl ?_, hfill.apart⟩, forall_mem_cons.2 ⟨?_, ?_⟩,
    hfill.kept, ?_⟩
  · obtain ⟨hlo, -⟩ := hfill.fresh b hb
    simp only
    omega
  · simp only
    omega
  · intro b hb
    obtain ⟨hlo, hhi⟩ := hfill.fresh b hb
    omega
  · have hrows : (rows.length : Int) = n.toInt := by omega
    rw [hfill.used, hrows, bytesOf]
    omega

/-- One more row: it is made at the end of the heap and stored into the array. -/
lemma Filling.next (hfill : Filling h h1 n ns ref rows blocks) (hns : ∀ n ∈ ns, Askable n)
    (hlen : rows.length < n.toInt.toNat) (hmake : h1.Makes h2 ns r bs)
    (hlimit : h2.limit = h1.limit) :
    h2.Accessible (ref + Int32.ofNat rows.length * 4) ∧
      Filling h (h2.write (index (ref + Int32.ofNat rows.length * 4)) r) n ns ref (rows ++ [r])
        (blocks ++ [bs]) := by
  obtain ⟨haddr, hacc1⟩ := hfill.array.slot hfill.used_lt hlen
  have hbytes := bytesOf_nonneg hns
  have hused := hmake.used
  have hmono : h1.used ≤ h2.used := by omega
  have hacc : h2.Accessible (ref + Int32.ofNat rows.length * 4) :=
    ⟨hacc1.1, hacc1.2.1, by have := hacc1.2.2; omega⟩
  refine ⟨hacc, ?_⟩
  obtain ⟨hstored, hother⟩ := load_of_store (store_of_accessible hacc r)
  have hstart := hfill.start
  have hinside := hfill.array.inside
  have hbase := hfill.array.toInt_base hfill.used_lt
  have hnonneg := hfill.array.nonneg
  have hsmall : h2.limit < 2 ^ 31 := hlimit ▸ hfill.small
  -- What was there before the row is as it was, but for the element that it is stored to.
  have hkept : ∀ {a : Int32}, h1.Accessible a → a.toInt ≠ ref.toInt + 4 * rows.length →
      (h2.write (index (ref + Int32.ofNat rows.length * 4)) r).load a = h1.load a := by
    intro a ha hne
    rw [hother a fun he => hne (he ▸ haddr)]
    exact hmake.kept ha
  have harray : (h2.write (index (ref + Int32.ofNat rows.length * 4)) r).ArrayAt ref n := by
    refine ⟨?_, hnonneg, by rw [used_write]; omega⟩
    rw [hkept (load_eq_ok_iff.1 hfill.array.length).1 (by omega)]
    exact hfill.array.length
  refine ⟨harray, hstart, fun i v hv => ?_, ?_, ?_, ?_, fun {a} ha => ?_, ?_, ?_,
    ?_⟩
  · rcases Nat.lt_trichotomy i rows.length with hi | rfl | hi
    · rw [List.getElem?_append_left hi] at hv
      obtain ⟨haddr', hacc'⟩ := hfill.array.slot hfill.used_lt (i := i) (by omega)
      rw [hkept hacc' (by omega)]
      exact hfill.elements i v hv
    · obtain rfl : r = v := by simpa using hv
      exact hstored
    · rw [List.getElem?_eq_none (by simp; omega)] at hv
      cases hv
  · refine rel_append ?_ (.cons ?_ .nil)
    · refine forall₂_shaped (Shaped.frame hfill.used_lt (by rw [used_write]; exact hmono) hns)
        hfill.shaped ?_
      rintro a ha ⟨b, hb, hlo, -⟩
      obtain ⟨hfresh, -⟩ := hfill.fresh b hb
      exact hkept ha (by omega)
    · refine hmake.shaped.frame (h2.used_lt hsmall) (le_of_eq (used_write _ _ _).symm) hns ?_
      rintro a - ⟨b, hb, hlo, -⟩
      obtain ⟨hfresh, -⟩ := hmake.fresh b hb
      refine hother a fun he => ?_
      rw [he] at hlo
      omega
  · rw [flatten_append, flatten_singleton, pairwise_append]
    refine ⟨hfill.apart, hmake.apart, fun b hb b' hb' => .inl ?_⟩
    have hold := hfill.fresh b hb
    have hnew := hmake.fresh b' hb'
    omega
  · intro b hb
    rw [flatten_append, flatten_singleton, mem_append] at hb
    rw [used_write]
    rcases hb with hb | hb
    · have hold := hfill.fresh b hb
      omega
    · have hnew := hmake.fresh b hb
      omega
  · have hhi := ha.2.2
    rw [hkept ⟨ha.1, ha.2.1, by omega⟩ (by omega)]
    exact hfill.kept ha
  · rw [used_write, hused, hfill.used, length_append, length_singleton]
    push_cast
    ring
  · rw [limit_write, hlimit, hfill.limit]
  · rw [limit_write]
    exact hsmall

lemma Sized.filling (hs : h.Sized h' n ref) (hn : Askable n) (hlimit : h'.limit = h.limit)
    (hsmall : h'.limit < 2 ^ 31) (ns : List Int32) :
    Filling h h' n ns ref [] [] := by
  obtain ⟨hlo, hhi⟩ := hn
  have hstop := hs.stop
  rw [Askable.toInt_requested ⟨hlo, hhi⟩] at hstop
  exact ⟨hs.arrayAt_iff.2 ⟨hlo, by omega⟩, hs.start, by simp, .nil, .nil, by simp, hs.kept,
    by simpa using hstop, hlimit, hsmall⟩

lemma Sized.makes (hs : h.Sized h' n ref) (hn : Askable n) (hlimit : h'.limit = h.limit)
    (hsmall : h'.limit < 2 ^ 31) :
    h.Makes h' [n] ref [(ref - 4, requested n)] := by
  have hfill := hs.filling hn hlimit hsmall []
  have hnil : (List.replicate n.toInt.toNat ([] : List (Int32 × Int32))).flatten = [] := by simp
  have hstart := hs.start
  have hinside := hfill.array.inside
  have hfull : Filling h h' n [] ref (List.replicate n.toInt.toNat 0)
      (List.replicate n.toInt.toNat []) := by
    refine { hfill with elements := fun i v hv => ?_, shaped := ?_, apart := ?_, fresh := ?_,
                        used := ?_ }
    · obtain ⟨hi, rfl⟩ := List.getElem?_eq_some_iff.1 hv
      rw [length_replicate] at hi
      obtain ⟨haddr, hacc⟩ := hfill.array.slot hfill.used_lt hi
      rw [getElem_replicate]
      exact hs.zero hacc.1 (by omega) (by have := hacc.2.2; omega)
    · generalize n.toInt.toNat = k
      induction k with
      | zero => exact .nil
      | succ k ih => exact .cons ⟨rfl, rfl⟩ ih
    · rw [hnil]
      exact .nil
    · simp
    · have hused := hfill.used
      simpa [bytesOf] using hused
  have hmakes := hfull.makes hn length_replicate
  rwa [hnil] at hmakes

end

end TreeMachine.Heap

namespace TreeMachine.Tree

open Heap

/-! ### Making arrays -/

def Env.onHeap (σ : Env) (h : Heap) : Env :=
  { σ with world := { σ.world with heap := h } }

namespace Eval

variable {mode : Structured.Mode} {σ : Env} {n : Int32} {ns : List Int32}

lemma put_of_accessible (ha : σ.world.heap.Accessible a) (v : Int32) :
    put mode a (pure v) σ = .ok () (σ.onHeap (σ.world.heap.write (index a) v)) := by
  have hload : load a σ = .ok (σ.world.heap.read (index a)) σ := by
    simp only [load, onWorld, World.inspect, load_of_accessible ha]
  have hstore : onWorld (World.store a v) σ =
      .ok () (σ.onHeap (σ.world.heap.write (index a) v)) := by
    simp only [onWorld, World.store, World.inspect, locate_of_accessible ha, bind, EStateM.bind]
    rfl
  rw [put]
  cases mode.lax with
  | true =>
    show (pure v >>= fun v => load a >>= fun _ => onWorld (World.store a v)) σ = _
    rw [pure_bind, bind_ok hload, hstore]
  | false =>
    show (load a >>= fun _ => pure v >>= fun v => onWorld (World.store a v)) σ = _
    rw [bind_ok hload, pure_bind, hstore]

lemma newSized_eq : newSized mode n = onWorld (World.alloc (requested n)) >>= fun base =>
  put mode base (pure n) >>= fun _ => pure (base + 4) := rfl

lemma newSized_of_room (hn : Askable n) (hlimit : σ.world.heap.limit < 2 ^ 31)
    (hroom : σ.world.heap.used + 4 * (n.toInt + 1) ≤ σ.world.heap.limit) :
    ∃ h' ref, newSized mode n σ = .ok ref (σ.onHeap h') ∧ σ.world.heap.Sized h' n ref ∧
      h'.limit = σ.world.heap.limit := by
  have hsize := hn.toInt_requested
  have hnonneg := hn.1
  have hdvd := four_dvd_requested n
  have hreserved := σ.world.heap.reserved
  have hwords := σ.world.heap.used_eq
  have haffords : σ.world.heap.Affords n := ⟨by omega, by omega⟩
  have hgrown := used_extend_requested haffords
  have hbase : (Int32.ofNat σ.world.heap.used).toInt = σ.world.heap.used :=
    Int32.toInt_ofNat_of_lt (by omega)
  have halloc : onWorld (World.alloc (requested n)) σ = .ok (Int32.ofNat σ.world.heap.used)
      (σ.onHeap (σ.world.heap.extend (requested n).toInt.toNat)) := by
    have hplace : σ.world.heap.room (requested n) = .ok (Int32.ofNat σ.world.heap.used) :=
      room_eq_ok_iff.2 ⟨⟨by omega, hdvd, by omega⟩, rfl⟩
    simp only [onWorld, World.alloc, World.inspect, bind, EStateM.bind, hplace]
    rfl
  have hacc : (σ.world.heap.extend (requested n).toInt.toNat).Accessible
      (Int32.ofNat σ.world.heap.used) := ⟨by omega, by omega, by omega⟩
  have hindex : index (Int32.ofNat σ.world.heap.used) = σ.world.heap.words := by
    unfold index
    omega
  refine ⟨_, _, ?_, sized_of_affords hlimit haffords, by rw [limit_write, limit_extend]⟩
  rw [newSized_eq, bind_ok halloc,
    bind_ok (put_of_accessible (σ := σ.onHeap (σ.world.heap.extend _)) hacc n), hindex]
  rfl

lemma newSized_of_full (hn : Askable n)
    (hfull : σ.world.heap.limit < σ.world.heap.used + (requested n).toInt) :
    newSized mode n σ = .error (.fault (.heapExhausted (requested n).toInt σ.world.heap.used
      σ.world.heap.limit)) σ := by
  have hsize := hn.toInt_requested
  have hnonneg := hn.1
  have hroom : σ.world.heap.room (requested n) = .error (.heapExhausted (requested n).toInt
      σ.world.heap.used σ.world.heap.limit) := by
    rw [room, if_neg, if_neg, if_pos (by omega)]
    · rw [not_not, mod_four_eq_zero_iff]
      exact four_dvd_requested n
    · rw [neg_iff_toInt_neg]
      omega
  have halloc : onWorld (World.alloc (requested n)) σ = .error (.fault (.heapExhausted
      (requested n).toInt σ.world.heap.used σ.world.heap.limit)) σ := by
    simp only [onWorld, World.alloc, World.inspect, bind, EStateM.bind, hroom]
  rw [newSized_eq, bind_error halloc]

/-- What is left of a budget is given back when an array has been made, and the array is made just
if there is room for all its rows. -/
def Builds (ns : List Int32) (cost : Nat) (make : Nat → Eval (Int32 × Nat)) : Prop :=
  ∀ (σ : Env) (b : Nat), σ.world.heap.limit < 2 ^ 31 →
    (σ.world.heap.used + bytesOf ns ≤ σ.world.heap.limit → ∃ h' ref bs,
      make (cost + b) σ = .ok (ref, b) (σ.onHeap h') ∧ σ.world.heap.Makes h' ns ref bs ∧
      h'.limit = σ.world.heap.limit) ∧
    (σ.world.heap.limit < σ.world.heap.used + bytesOf ns → ∃ size used σ',
      make (cost + b) σ = .error (.fault (.heapExhausted size used σ.world.heap.limit)) σ')

/-- What making an array takes from a budget: one for every row, and what making the row takes. -/
def rowCost : List Int32 → Nat
  | [] => 0
  | [_] => 0
  | n :: m :: ns => n.toInt.toNat * (rowCost (m :: ns) + 1)

lemma builds_putRows (mode : Structured.Mode) (hmake : Builds ns cost make)
    (hns : ∀ n ∈ ns, Askable n) (count : Nat) (b : Nat) :
    ∀ {rows blocks σ}, Filling h σ.world.heap n ns ref rows blocks →
      (σ.world.heap.used : Int) ≤ σ.world.heap.limit → rows.length + count = n.toInt.toNat →
      (σ.world.heap.used + count * bytesOf ns ≤ σ.world.heap.limit → ∃ h' rows' blocks',
        putRows mode make ref count rows.length (count * (cost + 1) + b) σ = .ok b (σ.onHeap h') ∧
        Filling h h' n ns ref rows' blocks' ∧ rows'.length = n.toInt.toNat) ∧
      (σ.world.heap.limit < σ.world.heap.used + count * bytesOf ns → ∃ size used σ',
        putRows mode make ref count rows.length (count * (cost + 1) + b) σ =
          .error (.fault (.heapExhausted size used σ.world.heap.limit)) σ') := by
  have hbytes := bytesOf_nonneg hns
  induction count with
  | zero =>
    intro rows blocks σ hfill hwithin hcount
    refine ⟨fun _ => ⟨σ.world.heap, rows, blocks, ?_, hfill, hcount⟩, fun hfull => ?_⟩
    · rw [zero_mul, zero_add]
      rfl
    · simp only [Nat.cast_zero, Int.zero_mul] at hfull
      omega
  | succ count ih =>
    intro rows blocks σ hfill hwithin hcount
    have hbudget : (count + 1) * (cost + 1) + b = cost + (count * (cost + 1) + b + 1) := by ring
    have hroom : σ.world.heap.used + ((count + 1 : Nat) : Int) * bytesOf ns =
        σ.world.heap.used + bytesOf ns + count * bytesOf ns := by
      push_cast
      ring
    have hrest : 0 ≤ count * bytesOf ns := Int.mul_nonneg (Int.natCast_nonneg _) hbytes
    have hlimit : σ.world.heap.limit < 2 ^ 31 := hfill.small
    obtain ⟨hok, herror⟩ := hmake σ (count * (cost + 1) + b + 1) hlimit
    rw [hbudget, putRows, hroom]
    by_cases hone : σ.world.heap.used + bytesOf ns ≤ σ.world.heap.limit
    · obtain ⟨h2, r, bs, hrun, hmakes, hlimit2⟩ := hok hone
      have hused := hmakes.used
      obtain ⟨hacc, hnext⟩ := hfill.next hns (by omega) hmakes hlimit2
      rw [bind_ok hrun]
      simp only
      rw [bind_ok (put_of_accessible (σ := σ.onHeap h2) hacc r)]
      have hused' : (h2.write (index (ref + Int32.ofNat rows.length * 4)) r).used = h2.used :=
        used_write _ _ _
      have hlimit' : (h2.write (index (ref + Int32.ofNat rows.length * 4)) r).limit = h2.limit :=
        limit_write _ _ _
      have hnext' := ih (σ := σ.onHeap (h2.write (index (ref + Int32.ofNat rows.length * 4)) r))
        hnext (show ((h2.write _ r).used : Int) ≤ (h2.write _ r).limit by omega)
        (by rw [length_append, length_singleton]; omega)
      rw [length_append, length_singleton] at hnext'
      obtain ⟨hthen, helse⟩ := hnext'
      refine ⟨fun h => hthen ?_, fun h => ?_⟩
      · show ((h2.write _ r).used : Int) + _ ≤ (h2.write _ r).limit
        omega
      · obtain ⟨size, used, σ', hrun⟩ := helse (by
          show (h2.write _ r).limit < ((h2.write _ r).used : Int) + _
          omega)
        refine ⟨size, used, σ', ?_⟩
        rw [← hlimit2, ← hlimit']
        exact hrun
    · obtain ⟨size, used, σ', hrun⟩ := herror (by omega)
      rw [bind_error hrun]
      exact ⟨fun h => absurd h (by omega), fun _ => ⟨size, used, σ', rfl⟩⟩

/-- Arrays of any number of dimensions are made just if there is room for all their rows. -/
lemma builds_newRows (mode : Structured.Mode) (hns : ∀ m ∈ n :: ns, Askable m) :
    Builds (n :: ns) (rowCost (n :: ns)) (newRows mode n ns) := by
  induction ns generalizing n with
  | nil =>
    intro σ b hlimit
    have hn := hns n mem_cons_self
    have hsize := hn.toInt_requested
    have hbytes : bytesOf [n] = 4 * (n.toInt + 1) := by simp [bytesOf]
    rw [hbytes, rowCost, zero_add, newRows]
    refine ⟨fun hroom => ?_, fun hfull => ?_⟩
    · obtain ⟨h', ref, hrun, hsized, hsame⟩ := newSized_of_room hn hlimit hroom
      rw [bind_ok hrun]
      exact ⟨h', ref, _, rfl, hsized.makes hn hsame (hsame ▸ hlimit), hsame⟩
    · rw [bind_error (newSized_of_full hn (by omega))]
      exact ⟨_, _, _, rfl⟩
  | cons m ns ih =>
    intro σ b hlimit
    obtain ⟨hn, hrest⟩ := forall_mem_cons.1 hns
    have hsize := hn.toInt_requested
    have hrows : 0 ≤ n.toInt * bytesOf (m :: ns) := Int.mul_nonneg hn.1 (bytesOf_nonneg hrest)
    rw [bytesOf, rowCost, newRows, ← Int.add_assoc]
    by_cases hone : σ.world.heap.used + 4 * (n.toInt + 1) ≤ σ.world.heap.limit
    · obtain ⟨h1, ref, hrun, hsized, hsame⟩ := newSized_of_room hn hlimit hone
      have hused : (h1.used : Int) = σ.world.heap.used + 4 * (n.toInt + 1) := by
        rw [hsized.stop, hsize]
      have hcount : ((n.toInt.toNat : Nat) : Int) = n.toInt := Int.toNat_of_nonneg hn.1
      obtain ⟨hthen, helse⟩ := builds_putRows mode (σ := σ.onHeap h1) (ih hrest) hrest
        n.toInt.toNat b (hsized.filling hn hsame (hsame ▸ hlimit) (m :: ns))
        (show (h1.used : Int) ≤ h1.limit by omega) (zero_add _)
      rw [hcount] at hthen helse
      rw [bind_ok hrun, ← hused, ← hsame]
      refine ⟨fun hroom => ?_, fun hfull => ?_⟩
      · obtain ⟨h', rows, blocks, hput, hfill, hlen⟩ := hthen hroom
        have hput' : putRows mode (newRows mode m ns) ref n.toInt.toNat 0
          (n.toInt.toNat * (rowCost (m :: ns) + 1) + b) (σ.onHeap h1) = _ := hput
        rw [bind_ok hput']
        exact ⟨h', ref, _, rfl, hfill.makes hn hlen, hfill.limit.trans hsame.symm⟩
      · obtain ⟨size, used, σ', hput⟩ := helse hfull
        have hput' : putRows mode (newRows mode m ns) ref n.toInt.toNat 0
          (n.toInt.toNat * (rowCost (m :: ns) + 1) + b) (σ.onHeap h1) = _ := hput
        rw [bind_error hput']
        exact ⟨size, used, σ', rfl⟩
    · rw [bind_error (newSized_of_full hn (by omega))]
      exact ⟨fun hroom => absurd hroom (by omega), fun _ => ⟨_, _, _, rfl⟩⟩

end Eval

end TreeMachine.Tree

namespace TreeMachine.Structured

open Compile
open Heap (Askable bytesOf)
open Tree.Eval

/-! ### The code that makes arrays -/

lemma registers_of_has (h : List.Forall₂ (Has k ρ) vs ts) : Compile.Registers ts := by
  induction h with
  | nil => simp [Compile.Registers]
  | cons hv _ ih =>
    obtain ⟨hint, n, rfl, -⟩ := hv
    exact forall_mem_cons.2 ⟨⟨_, rfl⟩, ih⟩

lemma sim_allocCode (hmalloc : ∀ size w, cx.call "malloc" [size] w = match World.alloc size w with
      | .ok addr w => .ok [addr] w
      | .error c w => .error (.fault c) w) (h : AllocOf size rest c alloc ref c')
    (hsizes : List.Forall₂ (Has c.temps ρ) (n :: ns) (size :: rest)) :
    Sim [] "" (fun (made : Int32 × Nat) _ ρ' =>
      ρ'.regs.get? (numbered "aR" (c.temps + 2)) = some made.1)
      (newRows cx.mode n ns cx.budget ⟨fun _ => none, ρ.world⟩)
      ((Stmt.seq alloc).eval cx ρ) := by
  -- No declaration is in a register here, and no function is called but the one that allocates.
  have F : Fits { mode := cx.mode, budget := cx.budget, function := ""
                  call := fun _ _ w => .error .unset w } cx :=
    ⟨rfl, rfl, fun _ _ _ => .inl rfl, hmalloc⟩
  have hB : OneToOne [] := ⟨.nil, .nil, by simp⟩
  have hall : trapOf "" ∉ labelsIn alloc := fun hmem => h.labels_high _ hmem (low_trapOf _ _)
  have hsim := sim_alloc F hB hall h (Q := fun (made : Int32 × Nat) _ ρ' =>
    ρ'.regs.get? (numbered "aR" (c.temps + 2)) = some made.1)
    (b := cx.budget) (σ := ⟨fun _ => none, ρ.world⟩) (f := pure) (by simp [Clear])
    (show alloc = [] ++ (alloc ++ []) by simp) (by simp [labelsIn]) hsizes ⟨rfl, by simp⟩
    fun hr _ hs => .ok hr hs
  rwa [bind_pure, List.append_nil, ← eval_seq] at hsim

lemma eval_allocCode (cx : Context)
    (hmalloc : ∀ size w, cx.call "malloc" [size] w = match World.alloc size w with
      | .ok addr w => .ok [addr] w
      | .error c w => .error (.fault c) w) (hbudget : cx.budget = rowCost (n :: ns))
    (h : AllocOf size rest c alloc ref c')
    (hsizes : List.Forall₂ (Has c.temps ρ) (n :: ns) (size :: rest))
    (hns : ∀ m ∈ n :: ns, Askable m) (hlimit : ρ.world.heap.limit < 2 ^ 31) :
    (ρ.world.heap.used + bytesOf (n :: ns) ≤ ρ.world.heap.limit → ∃ ρ' r bs,
      (Stmt.seq alloc).eval cx ρ = .ok () ρ' ∧
      ρ'.regs.get? (numbered "aR" (c.temps + 2)) = some r ∧
      ρ.world.heap.Makes ρ'.world.heap (n :: ns) r bs) ∧
    (ρ.world.heap.limit < ρ.world.heap.used + bytesOf (n :: ns) → ∃ asked used ρ',
      (Stmt.seq alloc).eval cx ρ =
          .error (.fault (.heapExhausted asked used ρ.world.heap.limit)) ρ' ∨
        ∃ src, (Stmt.seq alloc).eval cx ρ =
          .error (.target (.heapExhausted asked used ρ.world.heap.limit) src) ρ') := by
  have hsim := sim_allocCode hmalloc h hsizes
  obtain ⟨hroom, hfull⟩ := builds_newRows cx.mode hns
    ⟨fun _ => none, ρ.world⟩ 0 hlimit
  rw [add_zero, ← hbudget] at hroom hfull
  refine ⟨fun h => ?_, fun h => ?_⟩
  · obtain ⟨h', r, bs, hrun, hmakes, -⟩ := hroom h
    rw [hrun] at hsim
    obtain ⟨_, ρ', he, hr, hs⟩ := hsim
    refine ⟨ρ', r, bs, he, hr, ?_⟩
    rw [hs.world]
    exact hmakes
  · obtain ⟨asked, used, σ', hrun⟩ := hfull h
    rw [hrun] at hsim
    obtain ⟨e, ρ', he, hshow, -⟩ := hsim.resolve_left (by simp)
    refine ⟨asked, used, ρ', ?_⟩
    rcases hshow with (rfl | ⟨src, rfl⟩) | ⟨hindex, -⟩ | ⟨vs, hleave, -⟩
    · exact .inl he
    · exact .inr ⟨src, he⟩
    · simp at hindex
    · cases hleave

end TreeMachine.Structured

namespace TreeMachine.Structured.Compile

lemma AllocOf.eq_cons (h : AllocOf size rest c alloc ref c') :
    ∃ base x tail, alloc = .move (.temp base) (malloc x) :: tail := by
  cases h with
  | one => exact ⟨_, _, _, rfl⟩
  | rows _ => exact ⟨_, _, _, rfl⟩

lemma alloc_of_declared
    (h : declaredArray scopes trap (e :: es) elements c = .ok ((code, ref), c')) :
    ∃ moves size rest c1 alloc, code = moves ++ alloc ∧
      SizesOf scopes trap (e :: es) c moves (size :: rest) c1 ∧
      allocArray size rest c1 = .ok ((alloc, ref), c') := by
  obtain ⟨⟨moves, ts⟩, c1, hm, h⟩ := StateT.ok_of_bind h
  have hs := sizesOf_of_sizeMoves hm
  cases ts with
  | nil => cases hs
  | cons size rest =>
    obtain ⟨⟨alloc, ref'⟩, c2, ha, h⟩ := StateT.ok_of_bind h
    obtain ⟨hr, rfl⟩ := StateT.pure_eq_ok h
    cases hr
    exact ⟨moves, size, rest, c1, alloc, rfl, hs, ha⟩

end TreeMachine.Structured.Compile

namespace TreeMachine.Machine

open Structured
open Structured.Compile
open Heap (Askable bytesOf)
open Linear

/-! ### The run -/

lemma Inside.stretch {M : Setup} {u : CodeUnit} {g : Function} {s : State} (h : Inside M u g s)
    (hocc : Occurs (.stmt g.body) s.frame.fn.start (.stmt (.seq (pre ++ (ss ++ post)))) a) :
    Placed M.program (a + extent (itemsOfAll pre)) (itemsOfAll ss) ∧
      a + extent (itemsOfAll pre) + extent (itemsOfAll ss) ≤ s.frame.fn.stop := by
  obtain ⟨hplaced, -, hend⟩ := hocc.placed h.holds.placed
  have hitems : itemsOfNode (.stmt (.seq (pre ++ (ss ++ post)))) = itemsOfAll pre ++
      (itemsOfAll ss ++ (itemsOfAll post ++ [.node (.stmt (.seq (pre ++ (ss ++ post))))])) := by
    rw [itemsOfNode, itemsOf, itemsOfAll_append, itemsOfAll_append]
    simp
  have hstop : s.frame.fn.stop = s.frame.fn.start + extent (itemsOfNode (.stmt g.body)) :=
    h.holds.stop
  rw [hitems] at hplaced hend
  rw [extent_append, extent_append] at hend
  exact ⟨hplaced.append.2.append.1, by omega⟩

/-- Arrays of any number of dimensions. A declaration with sizes evaluates them into registers, and
then makes its array. From every state on in which a run comes to the code that makes it, the run
fails for want of memory, and this just if there is no room for all the rows; or it gets behind the
code, with a reference to an array whose elements are rows, down to the last dimension whose
elements are zero. All arrays it is made of are in blocks of their own, and all of these are new. -/
theorem arrays_of_rows {p q : Tree.Program} {u : CodeUnit} (hq : p.resolve = .ok q)
    (hu : CodeUnit.ofTree q = .ok u) (hmalloc : u.lookup "malloc" = none) :
    (∀ {scopes trap e es elements c code ref c'},
      declaredArray scopes trap (e :: es) elements c = .ok ((code, ref), c') →
      ∃ moves size rest c1 alloc, code = moves ++ alloc ∧
        SizesOf scopes trap (e :: es) c moves (size :: rest) c1 ∧
        allocArray size rest c1 = .ok ((alloc, ref), c')) ∧
    ∀ {M g s size rest c alloc ref c' pre post a n ns}, Inside M u g s →
      allocArray size rest c = .ok ((alloc, ref), c') →
      Occurs (.stmt g.body) s.frame.fn.start (.stmt (.seq (pre ++ (alloc ++ post)))) a →
      s.frame.ip = (a + extent (itemsOfAll pre) : Nat) →
      List.Forall₂ (Has c.temps s.env) (n :: ns) (size :: rest) → (∀ m ∈ n :: ns, Askable m) →
      s.world.heap.limit < 2 ^ 31 →
      (s.world.heap.used + bytesOf (n :: ns) ≤ s.world.heap.limit → ∃ R r bs ρ t, ref = .temp R ∧
        Reaches M s (s.stand (a + extent (itemsOfAll (pre ++ alloc))) ρ s.operands t) ∧
        ρ.regs.get? R = some r ∧ s.world.heap.Makes ρ.world.heap (n :: ns) r bs) ∧
      (s.world.heap.limit < s.world.heap.used + bytesOf (n :: ns) → ∃ asked used,
        FailsFrom M s (.heapExhausted asked used s.world.heap.limit)) := by
  refine ⟨Structured.Compile.alloc_of_declared, ?_⟩
  intro M g s size rest c alloc ref c' pre post a n ns h hcode hocc hip hsizes hns hlimit
  have hconf := Structured.confined_of_ofTree hq hu
  have halloc := Structured.Compile.allocOf_of_allocArray hcode
  obtain ⟨s0, h0, hs⟩ := h.started
  -- The state is before the first statement, and so it has the operands it should have.
  obtain ⟨base, x, tail, hcons⟩ := halloc.eq_cons
  have hfirst : Occurs (.stmt g.body) s.frame.fn.start
      (.stmt (.move (.temp base) (Structured.Compile.malloc x))) (a + extent (itemsOfAll pre)) := by
    refine hocc.trans (.part (u := .stmt (.move (.temp base) (Structured.Compile.malloc x)))
      (pre.map Node.stmt) ((tail ++ post).map Node.stmt) ?_ ?_)
    · simp [Node.children, show alloc = _ from hcons]
    · rw [← Linear.itemsOfAll_eq_flatMap]
      exact .self _ _
  have hstands := (before_of_reaches h.program hconf h0 hs h.member h.holds hfirst
    (Structured.ne_body_of_move hconf h.member) hip).stands hconf
  obtain ⟨esc, -, scope, -, hokay, -⟩ := hstands.confined
  obtain ⟨hplaced, hend⟩ := h.stretch hocc
  have hsite : Site M.program (s.cleared M.program (a + extent (itemsOfAll pre)))
      (a + extent (itemsOfAll pre)) (a + extent (itemsOfAll pre)) (itemsOfAll alloc) :=
    ⟨hplaced, le_rfl, hend⟩
  obtain ⟨⟨k, rfl⟩, hrest⟩ := forall_mem_cons.1 (Structured.registers_of_has hsizes)
  have hall : Stmt.ConfinedAll (Callable u) [] (labelsIn alloc) alloc :=
    Structured.Compile.confined_alloc ⟨hokay, by simp⟩ halloc hrest (List.Subset.refl _)
  have hlab : ∀ l ∈ [] ++ labelsIn alloc, (M.program.labels[l]?).isSome := fun l hl =>
    isSome_of_mem_labelsIn hplaced hl
  have sc := scene_of_unit (a := a + extent (itemsOfAll pre)) h.program hconf s
    (Tree.Eval.rowCost (n :: ns)) hstands.start_le
  have hself : (s.cleared M.program (a + extent (itemsOfAll pre))).stand
    (a + extent (itemsOfAll pre)) s.env s.operands s.trace = s := State.stand_env hip
  obtain ⟨hmade, hfails⟩ := Structured.eval_allocCode (s.context u M (Tree.Eval.rowCost (n :: ns)))
    (Structured.call_malloc _ _ _ _ _ hmalloc) rfl halloc hsizes hns hlimit
  refine ⟨fun hroom => ?_, fun hfull => ?_⟩
  · obtain ⟨ρ, r, bs, he, hr, hmakes⟩ := hmade hroom
    obtain ⟨t, hreach⟩ := reaches_list (t := s.trace) sc hall hlab (by simp) hsite hstands.level he
    rw [hself] at hreach
    refine ⟨_, r, bs, ρ, t, halloc.ref_numbered, ?_, hr, hmakes⟩
    rw [Linear.itemsOfAll_append, Linear.extent_append, ← add_assoc]
    exact hreach
  · obtain ⟨asked, used, ρ, he⟩ := hfails hfull
    have hrun := fails_list (t := s.trace) sc hall hlab (by simp) hsite hstands.level he
    rw [hself] at hrun
    exact ⟨asked, used, hrun⟩

/-- A program whose `main` declares an array of two rows with three elements each. -/
def gridding : Tree.Program where
  name := "gridding"
  functions := [{
    name := "main"
    returns := [.int]
    body := some {
      stmts := [
        .array {} "a" (some (.array (.array .int))) [.int {} 2, .int {} 3] [],
        .ret {} [.int {} 0]] } }]

def gridAlloc : List Stmt :=
  Structured.Compile.rowsCode (.temp "aS.1") (.temp "aB.3") (.temp "aR.4") (.temp "aJ.5")
    (.temp "aR.7") "rows.begin.1" "rows.body.2" "rows.end.3"
    (allocArray.header (.temp "aS.2") (.temp "aB.6") (.temp "aR.7"))

/-- The code that puts the sizes into registers. -/
def gridSizes : List Stmt :=
  [.move (.temp "aS.1") (.const 2), .move (.temp "aS.2") (.const 3)]

def gridded : CodeUnit where
  name := "gridding"
  functions := [{
    name := "main"
    params := []
    body := .seq [
      .seq [.seq (gridSizes ++ (gridAlloc ++ [.move (.temp "a") (.temp "aR.4")])),
        .ret [.const 0]]] }]

lemma code_of_gridding : (gridding.resolve >>= CodeUnit.ofTree) = .ok gridded := by cbv

/-- The array takes 44 bytes: twelve for the references to its rows, and sixteen for each row. -/
theorem arrays_of_rows_gridding :
    ∃ q m s0 s r bs ρ t, gridding.resolve = .ok q ∧ CodeUnit.ofTree q = .ok gridded ∧
      ofUnit? (some gridded) {} = .ok m ∧ m.start "main" 0 [] = .ok s0 ∧ Reaches m.setup s0 s ∧
      Reaches m.setup s (s.stand 64 ρ s.operands t) ∧ ρ.regs.get? "aR.4" = some r ∧
      s.world.heap.used = 4 ∧ ρ.world.heap.used = 48 ∧
      s.world.heap.Makes ρ.world.heap [2, 3] r bs := by
  obtain ⟨q, hq, hu⟩ := Except.bind_eq_ok code_of_gridding
  have hrun : ((ofUnit? (some gridded) {}).toOption.bind fun m =>
    (m.start "main" 0 []).toOption.bind fun s0 => (ahead m.setup 6 s0).map fun s =>
      decide (m.setup.program.entry "main" = some ⟨"main", 0, 72⟩ ∧
        s.frame.fn = ⟨"main", 0, 72⟩ ∧ s.frame.ip = 6 ∧ s.frame.regs.get? "aS.1" = some 2 ∧
        s.frame.regs.get? "aS.2" = some 3 ∧ s.world.heap = .empty 33554432)) =
      some true := by
    decide +kernel
  obtain ⟨m, hm, hrun⟩ := Except.bind_eq_some.1 hrun
  obtain ⟨s0, hs0, hrun⟩ := Except.bind_eq_some.1 hrun
  obtain ⟨s, hs, hrun⟩ := Option.map_eq_some_iff.1 hrun
  obtain ⟨hentry, hfn, hip, htwo, hthree, hheap⟩ := of_decide_eq_true hrun
  have hreach := reaches_of_ahead hs
  have hp := program_of_ofUnit? hm
  have hmem : gridded.functions[0] ∈ gridded.functions := List.getElem_mem _
  have hh := holds_of_entry hm hmem hentry
  have hstarted : Started m.setup gridded s0 := started_of_entry hm hmem hentry hs0
  have hinside : Inside m.setup gridded gridded.functions[0] s :=
    ⟨hp, hmem, hfn ▸ hh, s0, hstarted, hreach⟩
  have hocc : Occurs (.stmt gridded.functions[0].body) s.frame.fn.start (.stmt (.seq
      (gridSizes ++ (gridAlloc ++ [.move (.temp "a") (.temp "aR.4")])))) 0 := by
    rw [hfn]
    exact .part [] _ rfl (.part [] _ rfl (.self _ 0))
  have hcode : allocArray (.temp "aS.1") [.temp "aS.2"] { temps := 2 } =
      .ok ((gridAlloc, .temp "aR.4"), { temps := 7, labels := 3 }) := rfl
  have hsizes : List.Forall₂ (Has 2 s.env) [2, 3] [.temp "aS.1", .temp "aS.2"] :=
    .cons ⟨"aS", 1, rfl, by decide, htwo⟩ (.cons ⟨"aS", 2, rfl, by decide, hthree⟩ .nil)
  have hask : ∀ n ∈ [(2 : Int32), 3], Askable n := by
    intro n hn
    simp only [List.mem_cons, List.not_mem_nil, or_false] at hn
    rcases hn with rfl | rfl
    · exact ⟨by decide, by decide⟩
    · exact ⟨by decide, by decide⟩
  have hbytes : bytesOf [2, 3] = 44 := by decide
  have hlimit : s.world.heap.limit = 33554432 := by rw [hheap]; rfl
  have hused : s.world.heap.used = 4 := by rw [hheap]; rfl
  obtain ⟨R, r, bs, ρ, t, hR, hrun, href, hmakes⟩ :=
    ((arrays_of_rows hq hu rfl).2 hinside hcode hocc
    hip hsizes hask (by omega)).1 (by omega)
  cases hR
  have hend := hmakes.used
  exact ⟨q, m, s0, s, r, bs, ρ, t, hq, hu, hm, hs0, hreach, hrun, href, hused, by omega, hmakes⟩

end TreeMachine.Machine
