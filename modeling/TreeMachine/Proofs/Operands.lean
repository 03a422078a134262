import Mathlib
import TreeMachine.Machine.Operands

/-!
# Laws of the operand stack and of registers

The operand stack is determined by its items, so the laws below speak about whole stacks:
what was put on top comes off again, and what lies below is untouched. Registers are
described by `Registers.get?` alone.
-/

namespace TreeMachine

namespace Operands

lemma ext_items {s t : Operands} (h : s.items = t.items) : s = t := by
  obtain ⟨items, height, hs⟩ := s
  obtain ⟨items', height', ht⟩ := t
  obtain rfl : items = items' := h
  obtain rfl : height = height' := hs.trans ht.symm
  rfl

@[simp] lemma items_push (s : Operands) (o : Operand) : (s.push o).items = o :: s.items := rfl

@[simp] lemma height_push (s : Operands) (o : Operand) : (s.push o).height = s.height + 1 := rfl

/-- Puts operands on top, the last one topmost. -/
def append (s : Operands) (os : List Operand) : Operands where
  items := os.reverse ++ s.items
  height := s.height + os.length
  height_eq := by simp [s.height_eq, Nat.add_comm]

@[simp] lemma items_append (s : Operands) (os : List Operand) :
    (s.append os).items = os.reverse ++ s.items := rfl

@[simp] lemma height_append (s : Operands) (os : List Operand) :
    (s.append os).height = s.height + os.length := rfl

@[simp] lemma append_nil (s : Operands) : s.append [] = s := rfl

lemma append_singleton (s : Operands) (o : Operand) : s.append [o] = s.push o := rfl

lemma append_append (s : Operands) (os ps : List Operand) :
    (s.append os).append ps = s.append (os ++ ps) :=
  ext_items (by simp)

@[simp] lemma items_below (s : Operands) (k : Nat) : (s.below k).items = s.items.drop k := rfl

@[simp] lemma height_below (s : Operands) (k : Nat) : (s.below k).height = s.height - k := rfl

/-- Operands put on top come off together, the deepest first. -/
@[simp] lemma popMany_append (s : Operands) (os : List Operand) (operation : String) :
    (s.append os).popMany operation os.length = .ok (os, s) := by
  have hle : ¬(s.append os).height < os.length := by simp
  rw [popMany, if_neg hle]
  refine congrArg Except.ok (Prod.ext ?_ (ext_items ?_))
  · simp
  · simp

/-- Cutting a stack back to a height it has grown from. -/
lemma truncate_of_suffix {s t : Operands} (h : s.items <:+ t.items) : t.truncate s.height = s := by
  obtain ⟨os, hos⟩ := h
  have hlen : t.height = os.length + s.height := by
    rw [t.height_eq, s.height_eq, ← hos, List.length_append]
  refine ext_items ?_
  unfold truncate
  split
  · show List.drop (t.height - s.height) t.items = s.items
    rw [← hos, hlen, Nat.add_sub_cancel]
    exact List.drop_left
  · obtain rfl : os = [] := List.length_eq_zero_iff.1 (by omega)
    simpa using hos.symm

end Operands

/-- The word an operand carries; a register that was not set when it was read has none. -/
def Operand.word? : Operand → Option Int32
  | .value v => some v
  | .mem _ v => some v
  | .reg _ v => v
  | .symbol _ (some addr) => some (Int32.ofNat addr)
  | .symbol _ none => some (-1)

lemma exists_reg_of_word? {o : Operand} (h : o.word? = none) : ∃ r, o = .reg r none := by
  cases o with
  | value v => cases h
  | mem a v => cases h
  | reg r v =>
    cases v with
    | none => exact ⟨r, rfl⟩
    | some v => cases h
  | symbol l addr => cases addr <;> cases h

namespace Registers

lemma lookup_put (name : String) (v : Int32) (m : String) (es : List (String × Int32)) :
    (put name v es).lookup m = if m = name then some v else es.lookup m := by
  induction es with
  | nil =>
    by_cases h : m = name
    · simp [put, h]
    · have hb : (m == name) = false := by simpa using h
      simp [put, List.lookup, h, hb]
  | cons e es ih =>
    obtain ⟨n, w⟩ := e
    by_cases hn : n = name
    · subst hn
      by_cases h : m = n
      · simp [put, h]
      · have hb : (m == n) = false := by simpa using h
        simp [put, List.lookup, h, hb]
    · have hnb : (n == name) = false := by simpa using hn
      simp only [put, hnb, Bool.false_eq_true, if_false, List.lookup]
      by_cases hm : m = n
      · subst hm
        simp [hn]
      · have hmb : (m == n) = false := by simpa using hm
        simp [hmb, ih]

/-- A register has the value it was set to last. -/
lemma get?_set (r : Registers) (name m : String) (v : Int32) :
    (r.set name v).get? m = if m = name then some v else r.get? m :=
  lookup_put name v m r.entries

@[simp] lemma get?_set_self (r : Registers) (name : String) (v : Int32) :
    (r.set name v).get? name = some v := by
  rw [get?_set, if_pos rfl]

lemma get?_set_of_ne (r : Registers) (v : Int32) (h : m ≠ name) :
    (r.set name v).get? m = r.get? m := by
  rw [get?_set, if_neg h]

/-- Setting a family of registers leaves the others alone. -/
lemma get?_setAll_of_ne (r : Registers) (name : Nat → String) (h : ∀ i, m ≠ name i) (i : Nat)
    (vs : List Int32) : (r.setAll name i vs).get? m = r.get? m := by
  induction vs generalizing r i with
  | nil => rfl
  | cons v vs ih => rw [setAll, ih, get?_set_of_ne _ _ (h i)]

lemma get?_setAll_of_lt (r : Registers) (hname : Function.Injective name) (h : i < k)
    (vs : List Int32) : (r.setAll name k vs).get? (name i) = r.get? (name i) := by
  induction vs generalizing r k with
  | nil => rfl
  | cons v vs ih =>
    rw [setAll, ih _ (Nat.lt_succ_of_lt h),
      get?_set_of_ne _ _ fun he => absurd (hname he) (ne_of_lt h)]

lemma get?_setAll_of_ge (r : Registers) (hname : Function.Injective name)
    (h : i + vs.length ≤ k) : (r.setAll name i vs).get? (name k) = r.get? (name k) := by
  induction vs generalizing r i with
  | nil => rfl
  | cons v vs ih =>
    rw [List.length_cons] at h
    rw [setAll, ih _ (by omega), get?_set_of_ne _ _ fun he => absurd (hname he) (by omega)]

lemma get?_setAll (r : Registers) (hname : Function.Injective name) (hj : j < vs.length)
    (i : Nat) : (r.setAll name i vs).get? (name (i + j)) = vs[j]? := by
  induction vs generalizing r i j with
  | nil => exact absurd hj (Nat.not_lt_zero j)
  | cons v vs ih =>
    rw [setAll]
    cases j with
    | zero =>
      simpa using get?_setAll_of_lt (r.set (name i) v) hname (Nat.lt_succ_self i) vs
    | succ j =>
      have hrest := ih (r.set (name i) v) (Nat.lt_of_succ_lt_succ hj) (i + 1)
      rwa [add_right_comm] at hrest

end Registers

end TreeMachine
