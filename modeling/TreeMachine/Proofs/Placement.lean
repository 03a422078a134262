import TreeMachine.Machine.Basic
import TreeMachine.Proofs.Isolation

/-!
# Blocks at their addresses

The size of a heap may be any number, and an address is a word. A block gets the end of the heap as
its address, reduced to a word. So blocks stand at their addresses as long as the heap ends
before the positive words do, and a heap that may grow further gives out addresses that are none.
-/

namespace TreeMachine.Heap

/-- A block stands where the heap ended, and from then on each of its words can be read and
written. -/
structure Placed (h : Heap) (size addr : Int32) (h' : Heap) : Prop where
  pos : 0 < addr.toInt
  atEnd : addr.toInt = h.used
  words (k : Nat) : 4 * k < size.toInt → ∀ more,
    (∃ w, (serve h' more).2.load (addr + Int32.ofNat (4 * k)) = .ok w) ∧
      ∀ v, ∃ h'', (serve h' more).2.store (addr + Int32.ofNat (4 * k)) v = .ok h''

section

variable {h h' : Heap} {size addr : Int32}

lemma toInt_word (n k : Nat) :
    (Int32.ofNat n + Int32.ofNat (4 * k)).toInt = ((n : Int) + 4 * k).bmod (2 ^ 32) := by
  rw [Int32.toInt_add, Int32.toInt_ofNat', Int32.toInt_ofNat', Int.bmod_add_bmod, Int.add_bmod_bmod]
  rfl

/-- A block that ends before the positive words do stands at its address. -/
lemma placed_of_used_le (hlo : h.used < 2 ^ 31) (hhi : h'.used ≤ 2 ^ 31)
    (ha : h.alloc size = .ok (addr, h')) : Placed h size addr h' := by
  have hused := used_of_alloc ha
  obtain ⟨⟨-, hdvd, -⟩, rfl, -⟩ := alloc_eq_ok_iff.1 ha
  have haddr : (Int32.ofNat h.used).toInt = h.used := Int32.toInt_ofNat_of_lt hlo
  have hmin := h.reserved
  refine ⟨by omega, haddr, fun k hk more => ?_⟩
  have hword := toInt_word h.used k
  rw [Int.bmod_eq_of_le (by omega) (by omega)] at hword
  have hacc : (serve h' more).2.Accessible (Int32.ofNat h.used + Int32.ofNat (4 * k)) := by
    have hgrown := used_le_serve h' more
    have hwords : h.used = 4 * h.words := h.used_eq
    exact ⟨by omega, by omega, by omega⟩
  exact ⟨⟨_, load_of_accessible hacc⟩, fun v => ⟨_, store_of_accessible hacc v⟩⟩

/-- The word after the last positive one has the least word as its address, so no block that
holds it can be read throughout. -/
lemma Placed.used_le (hp : Placed h size addr h') (ha : h.alloc size = .ok (addr, h')) :
    h.used < 2 ^ 31 ∧ h'.used ≤ 2 ^ 31 := by
  have hused := used_of_alloc ha
  obtain ⟨-, rfl, -⟩ := alloc_eq_ok_iff.1 ha
  have hlo : h.used < 2 ^ 31 := by
    have hend := hp.atEnd
    have hlt := (Int32.ofNat h.used).toInt_lt
    omega
  refine ⟨hlo, not_lt.1 fun hover => ?_⟩
  have hwords : h.used = 4 * h.words := h.used_eq
  obtain ⟨k, hk⟩ : ∃ k, h.used + 4 * k = 2 ^ 31 := ⟨2 ^ 29 - h.words, by omega⟩
  obtain ⟨⟨w, hw⟩, -⟩ := hp.words k (by omega) []
  have hpos := (load_eq_ok_iff.1 hw).1.2.1
  rw [toInt_word, show (h.used : Int) + 4 * k = 2 ^ 31 by omega] at hpos
  exact absurd hpos (by decide)

end

/-- The heap of a machine after requests to it. -/
def after (o : Options) (rs : List Request) : Heap :=
  (serve (empty o.heapLimit) rs).2

/-- A heap that may grow to where the positive words end can be filled up to there. -/
lemma alloc_fill {o : Options} (hwide : 2 ^ 31 ≤ o.heapLimit) :
    ∃ h, alloc (empty o.heapLimit) 2147483644 = .ok (4, h) ∧ h.used = 2 ^ 31 ∧
      h.limit = o.heapLimit := by
  have hsize : (2147483644 : Int32).toInt = 2147483644 := by decide
  have hstart : (empty o.heapLimit).used = 4 := rfl
  refine ⟨_, alloc_eq_ok_iff.2 ⟨⟨by decide, ⟨536870911, hsize⟩, ?_⟩, rfl, rfl⟩, ?_,
    limit_extend _ _⟩
  · rw [hsize, hstart]
    exact hwide
  · rw [hsize, used_extend _ (by decide) (by rw [hstart]; exact hwide), hstart]
    rfl

/-- Where blocks stand. Whatever was asked of a heap before, a block stands at its address just if
it ends before the positive words do. So all blocks do if, and only if, the size of the heap is
itself the address of a word. -/
theorem placed_blocks (o : Options) :
    (∀ rs size addr h', (after o rs).alloc size = .ok (addr, h') →
      (Placed (after o rs) size addr h' ↔ (after o rs).used < 2 ^ 31 ∧ h'.used ≤ 2 ^ 31)) ∧
      ((∀ rs size addr h', (after o rs).alloc size = .ok (addr, h') →
        Placed (after o rs) size addr h') ↔ o.heapLimit < 2 ^ 31) := by
  refine ⟨fun rs size addr h' ha => ⟨fun hp => hp.used_le ha, fun hle =>
    placed_of_used_le hle.1 hle.2 ha⟩,
    fun hall => not_le.1 fun hwide => ?_, fun hlim rs size addr h' ha => ?_⟩
  · obtain ⟨h, hfill, hused, hlimit⟩ := alloc_fill hwide
    have hafter : after o [.alloc 2147483644] = h := by
      simp only [after, serve, Request.serve, hfill]
    -- an empty block behind the full one
    have hempty : h.alloc 0 = .ok (Int32.ofNat h.used, h.extend 0) :=
      alloc_eq_ok_iff.2 ⟨⟨by decide, by decide, by rw [hused, hlimit]; exact hwide⟩, rfl, rfl⟩
    have hpos := (hall _ _ _ _ (hafter ▸ hempty)).pos
    rw [hafter, hused] at hpos
    exact absurd hpos (by decide)
  · have hk : Keeps o.heapLimit _ (after o rs) := keeps_serve hlim (.init o.heapLimit) rs
    have hused := used_of_alloc ha
    obtain ⟨⟨hpos, -, hroom⟩, -, -⟩ := alloc_eq_ok_iff.1 ha
    have hlimit := hk.limit_eq
    exact placed_of_used_le (by omega) (by omega) ha

/-- A heap of a little more than 2 ^ 31 bytes. The second block ends past the positive words, and
the third one gets a negative address that no read takes. -/
theorem block_past_words :
    (after { heapSize := 2147483656 } [.alloc 4, .alloc 2147483644]).used = 2147483652 ∧
      (serve (after { heapSize := 2147483656 } [.alloc 4, .alloc 2147483644])
        [.alloc 4, .load (-2147483644)]).1 = [.allocated (-2147483644) 4,
          .failed (.load (-2147483644)) (.badAddress (-2147483644) "negative")] := by
  decide +kernel

end TreeMachine.Heap
