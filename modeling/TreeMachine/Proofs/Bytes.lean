import Mathlib
import TreeMachine.Machine.Heap

/-!
# Words made of bytes

A word is four bytes, the lowest first. A word that was written is read back, and words at other
aligned addresses share no byte with it. So the bytes of a heap can be taken for words with an
index, which is what the modules about programs do.
-/

namespace TreeMachine.Heap

/-! ### Bytes -/

variable {a c i : Nat} {b : UInt8}

@[simp] lemma used_setByte (h : Heap) (a : Nat) (b : UInt8) : (h.setByte a b).used = h.used := by
  unfold setByte
  split_ifs <;> rfl

@[simp] lemma limit_setByte (h : Heap) (a : Nat) (b : UInt8) :
    (h.setByte a b).limit = h.limit := by
  unfold setByte
  split_ifs <;> rfl

/-- A byte in use that is written is read back, and no other byte changes. -/
lemma byte_setByte (h : Heap) (b : UInt8) (ha : a < h.used) (c : Nat) :
    (h.setByte a b).byte c = if c = a then b else h.byte c := by
  unfold setByte byte
  simp only [ha, dif_pos, Array.getD_eq_getD_getElem?]
  split <;> grind

/-- Bytes that are not in use are zero. -/
lemma byte_of_used_le (h : Heap) (ha : h.used ≤ a) : h.byte a = 0 := by
  have hsize : h.bytes.size ≤ a := h.stored.trans ha
  simp [byte, Array.getD_eq_getD_getElem?, hsize]

/-! ### Words -/

/-- The bytes of a word make the word again. -/
lemma toInt32_of_bytes (v : Int32) :
    (UInt32.ofNat ((UInt8.ofNat v.toUInt32.toNat).toNat +
      256 * (UInt8.ofNat (v.toUInt32.toNat / 256)).toNat +
      65536 * (UInt8.ofNat (v.toUInt32.toNat / 65536)).toNat +
      16777216 * (UInt8.ofNat (v.toUInt32.toNat / 16777216)).toNat)).toInt32 = v := by
  have hlt := v.toUInt32.toNat_lt
  have hsum : v.toUInt32.toNat % 256 + 256 * (v.toUInt32.toNat / 256 % 256) +
      65536 * (v.toUInt32.toNat / 65536 % 256) + 16777216 * (v.toUInt32.toNat / 16777216 % 256) =
      v.toUInt32.toNat := by omega
  simp only [UInt8.toNat_ofNat', Nat.reducePow, hsum, UInt32.ofNat_toNat, Int32.toInt32_toUInt32]

@[simp] lemma used_putWord (h : Heap) (a : Nat) (v : Int32) : (h.putWord a v).used = h.used := by
  simp [putWord]

@[simp] lemma limit_putWord (h : Heap) (a : Nat) (v : Int32) : (h.putWord a v).limit = h.limit := by
  simp [putWord]

lemma byte_putWord (h : Heap) (v : Int32) (ha : a + 4 ≤ h.used) (c : Nat) :
    (h.putWord a v).byte c =
      if c = a + 3 then .ofNat (v.toUInt32.toNat / 16777216)
      else if c = a + 2 then .ofNat (v.toUInt32.toNat / 65536)
      else if c = a + 1 then .ofNat (v.toUInt32.toNat / 256)
      else if c = a then .ofNat v.toUInt32.toNat else h.byte c := by
  unfold putWord
  rw [byte_setByte _ _ (by simp; omega), byte_setByte _ _ (by simp; omega),
    byte_setByte _ _ (by simp; omega), byte_setByte _ _ (by omega)]

lemma byte_putWord_of_apart (h : Heap) (v : Int32) (ha : a + 4 ≤ h.used)
    (hc : c < a ∨ a + 4 ≤ c) : (h.putWord a v).byte c = h.byte c := by
  rw [byte_putWord h v ha, if_neg (by omega), if_neg (by omega), if_neg (by omega),
    if_neg (by omega)]

/-- A word that is written is read back. -/
lemma wordAt_putWord_self (h : Heap) (v : Int32) (ha : a + 4 ≤ h.used) :
    (h.putWord a v).wordAt a = v := by
  simp only [wordAt, byte_putWord h v ha]
  simpa using toInt32_of_bytes v

/-- Words that do not overlap the one that is written stay as they are. -/
lemma wordAt_putWord_of_apart (h : Heap) (v : Int32) (ha : a + 4 ≤ h.used)
    (hc : c + 4 ≤ a ∨ a + 4 ≤ c) : (h.putWord a v).wordAt c = h.wordAt c := by
  have hbyte : ∀ k < 4, (h.putWord a v).byte (c + k) = h.byte (c + k) := fun k hk =>
    byte_putWord_of_apart h v ha (by omega)
  simp only [wordAt, hbyte 1 (by decide), hbyte 2 (by decide), hbyte 3 (by decide)]
  rw [show (h.putWord a v).byte c = h.byte c from hbyte 0 (by decide)]

/-! ### Words by their index -/

/-- How many words are in use, the reserved one included. -/
def words (h : Heap) : Nat :=
  h.used / 4

/-- The word with an index. -/
def read (h : Heap) (i : Nat) : Int32 :=
  h.wordAt (4 * i)

def write (h : Heap) (i : Nat) (v : Int32) : Heap :=
  h.putWord (4 * i) v

/-- Writes words one after the other, starting at an index. -/
def writeAll (h : Heap) (i : Nat) (vs : List Int32) : Heap :=
  h.putWords (4 * i) vs

lemma used_eq (h : Heap) : h.used = 4 * h.words :=
  (Nat.mul_div_cancel' h.aligned).symm

@[simp] lemma used_write (h : Heap) (i : Nat) (v : Int32) : (h.write i v).used = h.used :=
  used_putWord h _ v

@[simp] lemma limit_write (h : Heap) (i : Nat) (v : Int32) : (h.write i v).limit = h.limit :=
  limit_putWord h _ v

@[simp] lemma words_write (h : Heap) (i : Nat) (v : Int32) : (h.write i v).words = h.words := by
  rw [words, used_write, words]

lemma writeAll_cons (h : Heap) (i : Nat) (v : Int32) (vs : List Int32) :
    h.writeAll i (v :: vs) = (h.write i v).writeAll (i + 1) vs := rfl

@[simp] lemma used_writeAll (h : Heap) (i : Nat) (vs : List Int32) :
    (h.writeAll i vs).used = h.used := by
  induction vs generalizing h i with
  | nil => rfl
  | cons v vs ih => rw [writeAll_cons, ih, used_write]

@[simp] lemma words_writeAll (h : Heap) (i : Nat) (vs : List Int32) :
    (h.writeAll i vs).words = h.words := by
  rw [words, used_writeAll, words]

@[simp] lemma limit_writeAll (h : Heap) (i : Nat) (vs : List Int32) :
    (h.writeAll i vs).limit = h.limit := by
  induction vs generalizing h i with
  | nil => rfl
  | cons v vs ih => rw [writeAll_cons, ih, limit_write]

/-- A new array is made of the words behind all others. -/
lemma appendArray_eq (h : Heap) (xs : List Int32) : h.appendArray xs =
    (h.extend (arraySize xs.length).toInt.toNat).writeAll h.words
      (Int32.ofNat xs.length :: xs) := by
  rw [appendArray, writeAll, ← h.used_eq]

/-- A word in use that is written is read back, and no other word changes. -/
lemma read_write (h : Heap) (hi : i < h.words) (j : Nat) (v : Int32) :
    (h.write i v).read j = if j = i then v else h.read j := by
  have hused := h.used_eq
  split_ifs with hj
  · rw [hj]
    exact wordAt_putWord_self h v (by omega)
  · exact wordAt_putWord_of_apart h v (by omega) (by omega)

/-- Words that are not in use are zero. -/
lemma read_of_words_le (h : Heap) (hi : h.words ≤ i) : h.read i = 0 := by
  have hused := h.used_eq
  simp only [read, wordAt, h.byte_of_used_le (show h.used ≤ 4 * i by omega),
    h.byte_of_used_le (show h.used ≤ 4 * i + 1 by omega),
    h.byte_of_used_le (show h.used ≤ 4 * i + 2 by omega),
    h.byte_of_used_le (show h.used ≤ 4 * i + 3 by omega)]
  rfl

@[simp] lemma limit_extend (h : Heap) (n : Nat) : (h.extend n).limit = h.limit := by
  unfold extend
  split_ifs <;> rfl

@[simp] lemma read_extend (h : Heap) (n i : Nat) : (h.extend n).read i = h.read i := by
  unfold extend
  split_ifs <;> rfl

/-- Whole words that fit are taken into use. -/
lemma used_extend (h : Heap) {n : Nat} (hn : 4 ∣ n) (hfit : (h.used : Int) + n ≤ h.limit) :
    (h.extend n).used = h.used + n := by
  rw [extend, dif_pos ⟨hn, hfit⟩]

end TreeMachine.Heap
