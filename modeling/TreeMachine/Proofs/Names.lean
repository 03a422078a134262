import Mathlib
import TreeMachine.Structured.Basic

/-!
# Names

Made names end in a point and a number, and the argument and result registers in a number
without a point. So made names are told apart by their parts, and they differ from every
name without a point.
-/

namespace TreeMachine

def numbered (hint : String) (n : Nat) : String :=
  hint ++ "." ++ toString n

def Pointless (name : String) : Prop :=
  '.' ∉ name.toList

instance (name : String) : Decidable (Pointless name) :=
  inferInstanceAs (Decidable (¬_))

lemma toList_numbered (hint : String) (n : Nat) :
    (numbered hint n).toList = hint.toList ++ '.' :: Nat.toDigits 10 n := by
  simp [numbered, Nat.repr_eq_ofList_toDigits]

lemma isDigit_of_mem {n : Nat} {c : Char} (h : c ∈ Nat.toDigits 10 n) : c.isDigit = true :=
  Nat.isDigit_of_mem_toDigits (by decide) (by decide) h

lemma not_mem_toDigits {c : Char} (h : c.isDigit = false) (n : Nat) : c ∉ Nat.toDigits 10 n :=
  fun hm => by simp [isDigit_of_mem hm] at h

lemma toDigits_inj {m n : Nat} (h : Nat.toDigits 10 m = Nat.toDigits 10 n) : m = n := by
  have := congrArg (Nat.ofDigitChars 10 · 0) h
  simpa [Nat.ofDigitChars_ten_toDigits] using this

lemma eq_and_eq_of_append_cons {α : Type} {c : α} {xs ys xs' ys' : List α}
    (h : xs ++ c :: ys = xs' ++ c :: ys') (hy : c ∉ ys) (hy' : c ∉ ys') : xs = xs' ∧ ys = ys' := by
  rcases List.append_eq_append_iff.1 h with ⟨zs, rfl, hz⟩ | ⟨zs, rfl, hz⟩
  · cases zs with
    | nil => simpa using hz
    | cons z zs => simp_all
  · cases zs with
    | nil => simpa [eq_comm] using hz
    | cons z zs => simp_all

lemma numbered_inj {hint hint' : String} {n n' : Nat} :
    numbered hint n = numbered hint' n' ↔ hint = hint' ∧ n = n' := by
  refine ⟨fun h => ?_, fun ⟨h, h'⟩ => by rw [h, h']⟩
  have hl := congrArg String.toList h
  rw [toList_numbered, toList_numbered] at hl
  obtain ⟨hh, hd⟩ := eq_and_eq_of_append_cons hl (not_mem_toDigits (by decide) n)
    (not_mem_toDigits (by decide) n')
  exact ⟨String.toList_inj.1 hh, toDigits_inj hd⟩

lemma not_pointless_numbered (hint : String) (n : Nat) : ¬Pointless (numbered hint n) := by
  simp [Pointless, toList_numbered]

lemma numbered_ne {hint name : String} {n : Nat} (h : Pointless name) : numbered hint n ≠ name :=
  fun he => not_pointless_numbered hint n (he ▸ h)

lemma numbered_ne_empty (hint : String) (n : Nat) : numbered hint n ≠ "" :=
  numbered_ne (by decide)

lemma numbered_ne_append {name suffix hint : String} {n : Nat} {c : Char}
    (hc : suffix.toList.getLast? = some c) (hd : c.isDigit = false) :
    numbered hint n ≠ name ++ suffix := by
  intro h
  have hl := congrArg (fun s : String => s.toList.getLast?) h
  simp only [toList_numbered, String.toList_append, List.getLast?_append, hc, Option.some_or,
    List.getLast?_cons] at hl
  have hmem : (Nat.toDigits 10 n).getLast?.getD '.' ∈ Nat.toDigits 10 n := by
    rw [List.getLast?_eq_some_getLast Nat.toDigits_ne_nil]
    exact List.getLast_mem _
  rw [Option.some.inj hl] at hmem
  exact not_mem_toDigits hd n hmem

namespace Structured

lemma toList_argReg (i : Nat) : (argReg i).toList = 'A' :: 'R' :: 'G' :: Nat.toDigits 10 i := by
  simp [argReg, Nat.repr_eq_ofList_toDigits]

lemma toList_retReg (i : Nat) : (retReg i).toList = 'R' :: 'E' :: 'T' :: Nat.toDigits 10 i := by
  simp [retReg, Nat.repr_eq_ofList_toDigits]

lemma argReg_inj {i j : Nat} : argReg i = argReg j ↔ i = j := by
  refine ⟨fun h => toDigits_inj ?_, fun h => by rw [h]⟩
  have := congrArg String.toList h
  rw [toList_argReg, toList_argReg] at this
  simpa using this

lemma retReg_inj {i j : Nat} : retReg i = retReg j ↔ i = j := by
  refine ⟨fun h => toDigits_inj ?_, fun h => by rw [h]⟩
  have := congrArg String.toList h
  rw [toList_retReg, toList_retReg] at this
  simpa using this

lemma isConventionReg_argReg (i : Nat) : isConventionReg (argReg i) = true := by
  simp only [isConventionReg, toList_argReg, Bool.and_eq_true, List.all_eq_true]
  exact ⟨by simp, fun c => isDigit_of_mem⟩

lemma isConventionReg_retReg (i : Nat) : isConventionReg (retReg i) = true := by
  simp only [isConventionReg, toList_retReg, Bool.and_eq_true, List.all_eq_true]
  exact ⟨by simp, fun c => isDigit_of_mem⟩

lemma pointless_retReg (i : Nat) : Pointless (retReg i) := by
  simp [Pointless, toList_retReg, not_mem_toDigits]

lemma ne_retReg_numbered (hint : String) (n i : Nat) : numbered hint n ≠ retReg i :=
  numbered_ne (pointless_retReg i)

end Structured

end TreeMachine
