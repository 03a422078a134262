import TreeMachine.Fault
import TreeMachine.Structured.Basic

/-!
# The heap

The memory of a run: bytes, addressed from zero on, that are read and written as words of four,
the lowest byte first. It grows by allocation up to a limit and never shrinks. The first word is
reserved, so that no data has address zero.

Only the bytes up to the last one that was written are stored; every other allocated byte is
zero. So an allocation costs nothing by itself.
-/

namespace TreeMachine

/-- The heap of a run. -/
structure Heap where
  /-- The bytes from address zero on; those in use past the end of it are zero. -/
  bytes : Array UInt8
  /-- The first address past all allocations. -/
  used : Nat
  /-- The size in bytes that allocation must not pass. -/
  limit : Int
  /-- Only whole words are allocated. -/
  aligned : 4 ∣ used
  /-- The first word always exists, whatever the limit is. -/
  reserved : 4 ≤ used
  within : (used : Int) ≤ max limit 4
  stored : bytes.size ≤ used
  deriving Repr, DecidableEq

namespace Heap

/-- A heap without allocations. -/
def empty (limit : Int) : Heap where
  bytes := #[]
  used := 4
  limit
  aligned := ⟨1, rfl⟩
  reserved := Nat.le_refl 4
  within := Int.le_max_right limit 4
  stored := Nat.zero_le 4

instance : Inhabited Heap :=
  ⟨.empty 0⟩

/-- The byte at an address; bytes that were never written are zero. -/
def byte (h : Heap) (a : Nat) : UInt8 :=
  h.bytes.getD a 0

theorem size_set_le (h : Heap) (a : Nat) (b : UInt8) :
    (h.bytes.setIfInBounds a b).size ≤ h.used := by
  rw [Array.size_setIfInBounds]
  exact h.stored

theorem size_push_le (h : Heap) {a : Nat} (b : UInt8) (ha : a < h.used) (hs : ¬a < h.bytes.size) :
    ((h.bytes ++ Array.replicate (a - h.bytes.size) 0).push b).size ≤ h.used := by
  simp only [Array.size_push, Array.size_append, Array.size_replicate]
  omega

/-- Writes a byte. There is nothing to write to past the bytes in use. -/
def setByte (h : Heap) (a : Nat) (b : UInt8) : Heap :=
  if ha : a < h.used then
    if hs : a < h.bytes.size then
      { h with bytes := h.bytes.setIfInBounds a b, stored := h.size_set_le a b }
    else
      { h with
        bytes := (h.bytes ++ Array.replicate (a - h.bytes.size) 0).push b
        stored := h.size_push_le b ha hs }
  else h

/-- The word whose first byte is at an address. -/
def wordAt (h : Heap) (a : Nat) : Int32 :=
  (UInt32.ofNat ((h.byte a).toNat + 256 * (h.byte (a + 1)).toNat +
    65536 * (h.byte (a + 2)).toNat + 16777216 * (h.byte (a + 3)).toNat)).toInt32

/-- Writes the four bytes of a word. -/
def putWord (h : Heap) (a : Nat) (v : Int32) : Heap :=
  let n := v.toUInt32.toNat
  (((h.setByte a (.ofNat n)).setByte (a + 1) (.ofNat (n / 256))).setByte
    (a + 2) (.ofNat (n / 65536))).setByte (a + 3) (.ofNat (n / 16777216))

/-- Writes words one after the other, starting at an address. -/
def putWords (h : Heap) (a : Nat) : List Int32 → Heap
  | [] => h
  | v :: vs => (h.putWord a v).putWords (a + 4) vs

/-- Checks a request for `size` bytes and gives the address it would get. -/
def room (h : Heap) (size : Int32) : Except Fault Int32 :=
  if size < 0 then .error (.invalidSize size "negative")
  else if size % 4 ≠ 0 then .error (.invalidSize size "not word-aligned")
  else if (h.used : Int) + size.toInt > h.limit then
    .error (.heapExhausted size.toInt h.used h.limit)
  else .ok (Int32.ofNat h.used)

/-- Takes `size` more bytes into use. Only whole words that fit can be. -/
def extend (h : Heap) (size : Nat) : Heap :=
  if hs : 4 ∣ size ∧ (h.used : Int) + size ≤ h.limit then
    { h with
      used := h.used + size
      aligned := Nat.dvd_add h.aligned hs.1
      reserved := Nat.le_add_right_of_le h.reserved
      within := Int.le_trans hs.2 (Int.le_max_left h.limit 4)
      stored := Nat.le_add_right_of_le h.stored }
  else h

/-- Reserves `size` bytes that read as zero, and gives their address. -/
def alloc (h : Heap) (size : Int32) : Except Fault (Int32 × Heap) := do
  let addr ← h.room size
  return (addr, h.extend size.toInt.toNat)

/-- Checks an address before `operation`. -/
def locate (h : Heap) (addr : Int32) (operation : String) : Except Fault Nat :=
  if addr = 0 then .error (.nullPointer operation)
  else if addr < 0 then .error (.badAddress addr "negative")
  else if addr % 4 ≠ 0 then .error (.badAddress addr "misaligned")
  else if addr.toInt + 4 > h.used then .error (.badAddress addr "past the high-water mark")
  else .ok addr.toInt.toNat

def load (h : Heap) (addr : Int32) : Except Fault Int32 :=
  (h.locate addr "load").map h.wordAt

def store (h : Heap) (addr v : Int32) : Except Fault Heap :=
  (h.locate addr "store").map fun a => h.putWord a v

/-- The bytes an array takes: its length word and its elements. -/
def arraySize (length : Nat) : Int32 :=
  Int32.ofNat (length + 1) * 4

/-- The heap after an array was put at its end: the length word, then the elements. -/
def appendArray (h : Heap) (xs : List Int32) : Heap :=
  (h.extend (arraySize xs.length).toInt.toNat).putWords h.used (Int32.ofNat xs.length :: xs)

/-- Allocates an array and gives the reference to its first element. -/
def newArray (h : Heap) (xs : List Int32) : Except Fault (Int32 × Heap) := do
  let base ← h.room (arraySize xs.length)
  return (base + 4, h.appendArray xs)

/-- The length of the array behind a reference: the word before it. -/
def arrayLength (h : Heap) (ref : Int32) : Except Fault Int32 :=
  h.load (ref - 4)

/-- The elements of the array behind a reference. -/
def array (h : Heap) (ref : Int32) : Except Fault (List Int32) := do
  let n ← h.arrayLength ref
  if n < 0 then throw (.invalidSize n "array length")
  if ref.toInt + n.toInt * 4 > h.used then
    throw (.badAddress ref "array extends past the high-water mark")
  (List.range n.toInt.toNat).mapM fun i => h.load (ref + Int32.ofNat i * 4)

end Heap

end TreeMachine
