import Mathlib
import TreeMachine.Testing.Shrink

/-!
# Shrinking gets smaller and ends at a value that fails

A list is smaller than another if it is shorter, or as long with a head that is nearer to
zero. Every candidate for a list is smaller than the list, but for one: a list of one
element is the second of its own two halves. Shrinking does not get past such a list, since
it tries the halves before it tries smaller heads.

Whatever the shrinker, shrinking a value that fails goes along first failing candidates,
and stops at a value that fails. If it stops before its rounds are used up, all candidates
for that value pass.
-/

open List

namespace TreeMachine.Testing

/-! ### Smaller words -/

lemma natAbs_half {v : Int32} (h : v ≠ 0) : (v / 2).toInt.natAbs < v.toInt.natAbs := by
  have hv : v.toInt ≠ 0 := fun h0 => h (Int32.toInt_inj.1 h0)
  have htwo : (2 : Int32).toInt.natAbs = 2 := rfl
  rw [Int32.toInt_div_of_ne_right _ _ (by decide), Int.natAbs_tdiv, htwo]
  exact Nat.div_lt_self (Int.natAbs_pos.2 hv) Nat.one_lt_two

-- The step never leaves the range of words, because it goes toward zero.
lemma natAbs_step {v : Int32} (h : v ≠ 0) :
    (if v < 0 then v + 1 else v - 1).toInt.natAbs < v.toInt.natAbs := by
  have hv : v.toInt ≠ 0 := fun h0 => h (Int32.toInt_inj.1 h0)
  have hone : (1 : Int32).toInt = 1 := rfl
  have hlow := v.le_toInt
  have hhigh := v.toInt_lt
  split
  · next hneg =>
    have hneg : v.toInt < 0 := Int32.lt_iff_toInt_lt.1 hneg
    rw [Int32.toInt_add, hone, Int.bmod_eq_of_le (by omega) (by omega)]
    omega
  · next hpos =>
    have hpos : ¬v.toInt < 0 := fun hneg => hpos (Int32.lt_iff_toInt_lt.2 hneg)
    rw [Int32.toInt_sub, hone, Int.bmod_eq_of_le (by omega) (by omega)]
    omega

lemma natAbs_of_mem_shrinkInt32 (h : c ∈ shrinkInt32 v) : c.toInt.natAbs < v.toInt.natAbs := by
  rw [shrinkInt32] at h
  split at h
  · cases h
  · next hv =>
    simp only [mem_append, mem_ite_nil_right, mem_singleton] at h
    rcases h with (rfl | ⟨-, rfl⟩) | ⟨-, rfl⟩
    · exact Int.natAbs_pos.2 fun h0 => hv (Int32.toInt_inj.1 h0)
    · exact natAbs_half hv
    · exact natAbs_step hv

/-! ### Smaller lists -/

/-- The length of a list, and then how far its head is from zero. -/
def weight (v : List Int32) : ℕ ×ₗ ℕ :=
  toLex (v.length, (v.headD 0).toInt.natAbs)

lemma weight_lt_of_length (h : c.length < v.length) : weight c < weight v :=
  Prod.Lex.toLex_lt_toLex.2 (.inl h)

lemma weight_lt_of_head (h : x.toInt.natAbs < y.toInt.natAbs) :
    weight (x :: vs) < weight (y :: vs) :=
  Prod.Lex.toLex_lt_toLex.2 (.inr ⟨rfl, h⟩)

/-- Both halves of a list are shorter, unless the list has one element only: then the
second half is all of it. -/
lemma weight_of_mem_shrinkList (h : c ∈ shrinkList (some shrinkInt32) v) :
    weight c < weight v ∨ c = v ∧ v.length = 1 := by
  cases v with
  | nil => cases h
  | cons x vs =>
    simp only [shrinkList, cons_append, nil_append, mem_cons, mem_map] at h
    rcases h with rfl | rfl | ⟨y, hy, rfl⟩
    · exact .inl (weight_lt_of_length (by simp; omega))
    · cases vs with
      | nil => exact .inr ⟨by simp, rfl⟩
      | cons z zs => exact .inl (weight_lt_of_length (by simp; omega))
    · exact .inl (weight_lt_of_head (natAbs_of_mem_shrinkInt32 hy))

lemma shrinkFailure_single {elem : Option (Shrinker Int32)} {property : List Int32 → Bool}
    {x : Int32} (hnil : property [] = true) (hx : property [x] = false) (rounds : Nat) :
    shrinkFailure (shrinkList elem) property rounds [x] = ([x], rounds) := by
  induction rounds with
  | zero => rfl
  | succ rounds ih => simp [shrinkFailure, shrinkList, hnil, hx, ih]

/-- The second half of a list that is not empty is not empty, so halving leads to a list of
one element, and from there nowhere else. -/
lemma acc_shrinkList {elem : Option (Shrinker Int32)} {v : List Int32} :
    Acc (fun c v => c ∈ shrinkList elem v) v ↔ v = [] := by
  refine ⟨fun h => ?_, ?_⟩
  · induction h with
    | intro v _ ih =>
      cases v with
      | nil => rfl
      | cons x vs =>
        have hnil := ih ((x :: vs).drop ((x :: vs).length / 2)) (by simp [shrinkList])
        rw [drop_eq_nil_iff, length_cons] at hnil
        omega
  · rintro rfl
    exact .intro [] fun c hc => by cases hc

/-- All candidates for a list are smaller exactly if it does not have one element. In any case
those that differ from the list are smaller, and chains of such candidates are finite; but from
a list that is not empty there are chains of candidates without an end. A list of one element
that fails while the empty list passes is shrunk to itself, round after round. -/
theorem shrinkList_smaller (v : List Int32) :
    ((∀ c ∈ shrinkList (some shrinkInt32) v, weight c < weight v) ↔ v.length ≠ 1) ∧
      (∀ c ∈ shrinkList (some shrinkInt32) v, c ≠ v → weight c < weight v) ∧
      Acc (fun c v => c ∈ shrinkList (some shrinkInt32) v ∧ c ≠ v) v ∧
      (Acc (fun c v => c ∈ shrinkList (some shrinkInt32) v) v ↔ v = []) ∧
      ∀ (property : List Int32 → Bool) (rounds : Nat),
        v.length = 1 → property [] = true → property v = false →
          shrinkFailure (shrinkList (some shrinkInt32)) property rounds v = (v, rounds) := by
  have hdiff : ∀ {c v}, c ∈ shrinkList (some shrinkInt32) v ∧ c ≠ v → weight c < weight v :=
    fun hcv => (weight_of_mem_shrinkList hcv.1).resolve_right fun hsame => hcv.2 hsame.1
  refine ⟨⟨fun h hone => ?_, fun hone c hc => ?_⟩, fun c hc hne => hdiff ⟨hc, hne⟩, ?_,
    acc_shrinkList, fun property rounds hone hnil hv => ?_⟩
  · obtain ⟨x, rfl⟩ := length_eq_one_iff.1 hone
    exact lt_irrefl _ (h [x] (by simp [shrinkList]))
  · exact (weight_of_mem_shrinkList hc).resolve_right fun hsame => hone hsame.2
  · exact Subrelation.accessible hdiff ((InvImage.wf weight wellFounded_lt).apply v)
  · obtain ⟨x, rfl⟩ := length_eq_one_iff.1 hone
    exact shrinkFailure_single hnil hv rounds

/-- A list of one element is a candidate for itself, so there are chains without an end. -/
theorem single_of_shrinkList :
    [5] ∈ shrinkList (some shrinkInt32) [5] ∧ ¬weight [5] < weight [5] ∧
      ¬Acc (fun c v => c ∈ shrinkList (some shrinkInt32) v) [5] := by
  refine ⟨by decide, lt_irrefl _, fun h => ?_⟩
  cases acc_shrinkList.1 h

/-! ### The way down -/

section

variable {α : Type} {shrink : Shrinker α} {property : α → Bool}

/-- The first candidate for `v` on which the property fails is `c`. -/
def Descends (shrink : Shrinker α) (property : α → Bool) (v c : α) : Prop :=
  ∃ before after, shrink v = before ++ c :: after ∧ (∀ b ∈ before, property b = true) ∧
    property c = false

lemma descends_of_find? (h : ((shrink v).find? fun c => !property c) = some c) :
    Descends shrink property v c := by
  obtain ⟨hc, before, after, hsplit, hpass⟩ := List.find?_eq_some_iff_append.1 h
  exact ⟨before, after, hsplit, by simpa using hpass, by simpa using hc⟩

/-- Shrinking goes down a path that is as long as its rounds, or that is shorter by the last
round, which finds no candidate that fails. -/
lemma path_of_shrinkFailure (shrink : Shrinker α) (property : α → Bool) (rounds : Nat) (v : α) :
    ∃ path, List.IsChain (Descends shrink property) (v :: path) ∧
      (v :: path).getLast? = some (shrinkFailure shrink property rounds v).1 ∧
      (path.length = rounds ∧ (shrinkFailure shrink property rounds v).2 = rounds ∨
        path.length < rounds ∧ (shrinkFailure shrink property rounds v).2 = path.length + 1 ∧
          ∀ c ∈ shrink (shrinkFailure shrink property rounds v).1, property c = true) := by
  induction rounds generalizing v with
  | zero => exact ⟨[], .singleton v, rfl, .inl ⟨rfl, rfl⟩⟩
  | succ rounds ih =>
    rw [shrinkFailure]
    split
    · next hnone =>
      have hpass : ∀ c ∈ shrink v, property c = true := by simpa using hnone
      exact ⟨[], .singleton v, rfl, .inr ⟨Nat.succ_pos _, rfl, hpass⟩⟩
    · next c hsome =>
      obtain ⟨path, hchain, hlast, hend⟩ := ih c
      refine ⟨c :: path, .cons_cons (descends_of_find? hsome) hchain, by simpa using hlast, ?_⟩
      simp only [length_cons]
      exact hend.imp (fun h => ⟨by omega, by omega⟩) fun h => ⟨by omega, by omega, h.2.2⟩

lemma fails_of_path (hv : property v = false)
    (hchain : List.IsChain (Descends shrink property) (v :: path))
    (hlast : (v :: path).getLast? = some w) : property w = false := by
  induction path generalizing v with
  | nil => exact Option.some.inj hlast ▸ hv
  | cons c path ih =>
    obtain ⟨⟨-, -, -, -, hc⟩, hrest⟩ := isChain_cons_cons.1 hchain
    exact ih hc hrest (by simpa using hlast)

end

/-- Shrinking a value that fails ends at a value that fails, after at most as many rounds as
are allowed, and on a path of at most as many steps, each to the first candidate that
fails. If it took fewer rounds, all candidates for that value pass. -/
theorem shrinkFailure_minimal {α : Type} (shrink : Shrinker α) (property : α → Bool)
    (rounds : Nat) (v : α) (hv : property v = false) :
    property (shrinkFailure shrink property rounds v).1 = false ∧
      (∃ path, List.IsChain (Descends shrink property) (v :: path) ∧
        (v :: path).getLast? = some (shrinkFailure shrink property rounds v).1 ∧
        path.length ≤ rounds) ∧
      (shrinkFailure shrink property rounds v).2 ≤ rounds ∧
      ((shrinkFailure shrink property rounds v).2 < rounds →
        ∀ c ∈ shrink (shrinkFailure shrink property rounds v).1, property c = true) := by
  obtain ⟨path, hchain, hlast, hend⟩ := path_of_shrinkFailure shrink property rounds v
  refine ⟨fails_of_path hv hchain hlast, ⟨path, hchain, hlast, by omega⟩, by omega, ?_⟩
  intro hfewer
  exact hend.elim (fun h => absurd h.2 hfewer.ne) fun h => h.2.2

/-- From 37, a property that fails from 10 on shrinks to 10 on the way 18, 17, ..., 11. -/
theorem shrinkFailure_to_ten :
    shrinkFailure shrinkInt32 (· < 10) 200 37 = (10, 10) ∧
      ∀ c ∈ shrinkInt32 10, decide (c < 10) = true := by
  have hrun : shrinkFailure shrinkInt32 (· < 10) 200 37 = (10, 10) := by decide
  obtain ⟨-, -, -, hpass⟩ := shrinkFailure_minimal shrinkInt32 (· < 10) 200 37 (by decide)
  rw [hrun] at hpass
  exact ⟨hrun, hpass (by decide)⟩

end TreeMachine.Testing
