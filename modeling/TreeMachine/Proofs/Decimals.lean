import Mathlib
import TreeMachine.Text.Blank
import TreeMachine.Text.Decimal

/-!
# Numbers in decimal

Which texts are read as numbers, and as which. The text of a number is read back as the number, and
trimming takes away just the white space around a text.
-/

open List

namespace TreeMachine.Decimal

lemma digit?_eq (c : Char) : digit? c = if c.isDigit then some (c.toNat - '0'.toNat) else none := by
  simp [digit?, Char.isDigit, Char.le_def]

lemma foldlM_digits (cs : List Char) (n : Nat) :
    cs.foldlM (fun n c => (digit? c).map (10 * n + ·)) n =
      if cs.all Char.isDigit then some (Nat.ofDigitChars 10 cs n) else none := by
  induction cs generalizing n with
  | nil => rfl
  | cons c cs ih =>
    rw [foldlM_cons, digit?_eq, all_cons, Nat.ofDigitChars_cons]
    cases c.isDigit with
    | false => rfl
    | true => exact ih _

/-- A text that is one or more digits, after a sign or without one, and its value. -/
def Spells (cs : List Char) (v : Int) : Prop :=
  ∃ ds : List Char, ds ≠ [] ∧ ds.all Char.isDigit ∧
    ((cs = ds ∨ cs = '+' :: ds) ∧ v = Nat.ofDigitChars 10 ds 0 ∨
      cs = '-' :: ds ∧ v = -(Nat.ofDigitChars 10 ds 0 : Int))

section

variable {cs : List Char}

lemma readNat_eq_some_iff :
    readNat cs = some n ↔ cs ≠ [] ∧ cs.all Char.isDigit ∧ n = Nat.ofDigitChars 10 cs 0 := by
  cases cs with
  | nil => simp [readNat]
  | cons c cs =>
    rw [readNat, foldlM_digits]
    · split_ifs with h <;> simp [h, eq_comm]
    · rintro ⟨⟩

lemma readInt_eq_some_iff : readInt cs = some v ↔ Spells cs v := by
  unfold readInt
  constructor
  · intro h
    split at h
    all_goals
      obtain ⟨_, hn, rfl⟩ := Option.map_eq_some_iff.1 h
      obtain ⟨n, hread, hcast⟩ := Option.bind_eq_some_iff.1 hn
      cases hcast
      obtain ⟨hne, hall, rfl⟩ := readNat_eq_some_iff.1 hread
    · exact ⟨_, hne, hall, .inl ⟨.inr rfl, rfl⟩⟩
    · exact ⟨_, hne, hall, .inr ⟨rfl, rfl⟩⟩
    · exact ⟨_, hne, hall, .inl ⟨.inl rfl, rfl⟩⟩
  · rintro ⟨ds, hne, hall, hcs⟩
    have hread := readNat_eq_some_iff.2 ⟨hne, hall, rfl⟩
    rcases hcs with ⟨rfl | rfl, rfl⟩ | ⟨rfl, rfl⟩
    · split
      · simp [Char.isDigit] at hall
      · simp [Char.isDigit] at hall
      · rw [hread]; rfl
    · simp only [hread]; rfl
    · simp only [hread]; rfl

lemma int32?_eq_some_iff : int32? cs = some v ↔ Spells cs v.toInt := by
  have hlo := Int32.le_toInt v
  have hhi := Int32.toInt_lt v
  have hmin : Int32.minValue.toInt = -2 ^ 31 := rfl
  have hmax : Int32.maxValue.toInt = 2 ^ 31 - 1 := rfl
  rw [← readInt_eq_some_iff, int32?]
  cases readInt cs with
  | none => simp
  | some n =>
    simp only [Option.some.injEq]
    split_ifs with hn
    · rw [Option.some.injEq]
      constructor
      · rintro rfl
        exact (Int32.toInt_ofInt_of_le (by omega) (by omega)).symm
      · rintro rfl
        exact Int32.ofInt_toInt v
    · simp only [false_iff]
      omega

lemma digits_repr (n : Nat) : n.repr.toList ≠ [] ∧ n.repr.toList.all Char.isDigit = true ∧
    Nat.ofDigitChars 10 n.repr.toList 0 = n := by
  rw [Nat.repr_eq_ofList_toDigits, String.toList_ofList]
  exact ⟨Nat.toDigits_ne_nil, all_eq_true.2 fun c hc =>
    Nat.isDigit_of_mem_toDigits (by decide) le_rfl hc, Nat.ofDigitChars_ten_toDigits⟩

/-- The text of a number spells it. -/
lemma spells_toString (n : Int) : Spells (toString n).toList n := by
  rw [Int.toString_eq_repr]
  cases n with
  | ofNat n =>
    obtain ⟨hne, hall, hvalue⟩ := digits_repr n
    exact ⟨_, hne, hall, .inl ⟨.inl rfl, by rw [hvalue]; rfl⟩⟩
  | negSucc n =>
    obtain ⟨hne, hall, hvalue⟩ := digits_repr (n + 1)
    refine ⟨_, hne, hall, .inr ⟨?_, by rw [hvalue]; rfl⟩⟩
    rw [show (Int.negSucc n).repr = "-" ++ (n + 1).repr from rfl, String.toList_append]
    rfl

lemma toString_inj {n m : Int} (h : toString n = toString m) : n = m := by
  have hn := readInt_eq_some_iff.2 (spells_toString n)
  rw [h, readInt_eq_some_iff.2 (spells_toString m)] at hn
  exact (Option.some.inj hn).symm

lemma Spells.mem (h : Spells cs v) (hc : c ∈ cs) : c = '+' ∨ c = '-' ∨ c.isDigit := by
  obtain ⟨ds, -, hall, hcs⟩ := h
  have hd : c ∈ ds → c.isDigit := all_eq_true.1 hall c
  rcases hcs with ⟨rfl | rfl, -⟩ | ⟨rfl, -⟩
  · exact .inr (.inr (hd hc))
  · exact (mem_cons.1 hc).imp_right fun hc => .inr (hd hc)
  · exact .inr ((mem_cons.1 hc).imp_right hd)

lemma Spells.not_blank (h : Spells cs v) : cs ≠ [] ∧ ∀ c ∈ cs, Text.isBlank c = false := by
  refine ⟨?_, fun c hc => ?_⟩
  · obtain ⟨ds, hne, -, ⟨rfl | rfl, -⟩ | ⟨rfl, -⟩⟩ := h
    · exact hne
    · exact cons_ne_nil _ _
    · exact cons_ne_nil _ _
  · rcases h.mem hc with rfl | rfl | hd
    · rfl
    · rfl
    · obtain ⟨hlo, hhi⟩ := Char.isDigit_iff_toNat.1 hd
      have hzero : '0'.toNat = 48 := rfl
      have hnine : '9'.toNat = 57 := rfl
      simp only [Text.isBlank, Bool.or_eq_false_iff, Bool.and_eq_false_iff, decide_eq_false_iff_not,
        beq_eq_false_iff_ne]
      omega

end

end TreeMachine.Decimal

namespace TreeMachine.Text

lemma trim_decomposes (cs : List Char) : ∃ pre post, cs = pre ++ trim cs ++ post ∧
    ∀ c ∈ pre ++ post, isBlank c = true := by
  refine ⟨cs.takeWhile isBlank, ((cs.dropWhile isBlank).reverse.takeWhile isBlank).reverse, ?_, ?_⟩
  · rw [trim, trimBy, append_assoc, ← reverse_append, takeWhile_append_dropWhile,
      reverse_reverse, takeWhile_append_dropWhile]
  · intro c hc
    rcases mem_append.1 hc with hc | hc
    · exact mem_takeWhile_imp hc
    · exact mem_takeWhile_imp (mem_reverse.1 hc)

lemma trim_eq (hblank : ∀ c ∈ pre ++ post, isBlank c = true) (hne : core ≠ [])
    (hcore : ∀ c ∈ core, isBlank c = false) : trim (pre ++ core ++ post) = core := by
  obtain ⟨hpre, hpost⟩ := forall_mem_append.1 hblank
  have hdrop : ∀ {xs ys : List Char}, (∀ c ∈ xs, isBlank c = true) → ys ≠ [] →
      (∀ c ∈ ys, isBlank c = false) → ∀ zs, (xs ++ (ys ++ zs)).dropWhile isBlank = ys ++ zs := by
    intro xs ys hxs hys hn zs
    rw [dropWhile_append_of_pos hxs]
    cases ys with
    | nil => exact absurd rfl hys
    | cons y ys => simp [hn y mem_cons_self]
  rw [trim, trimBy, append_assoc, hdrop hpre hne hcore, reverse_append,
    ← List.append_nil core.reverse,
    hdrop (fun c hc => hpost c (mem_reverse.1 hc)) (by simpa using hne)
      (fun c hc => hcore c (mem_reverse.1 hc)), List.append_nil, reverse_reverse]

end TreeMachine.Text

