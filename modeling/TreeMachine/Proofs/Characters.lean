import Mathlib
import TreeMachine.Text.Utf8

/-!
# Characters and bytes

What a byte string is read as. It starts with the encoding of a character, which is then read, or
its first byte is read as the replacement character. So the bytes of a text are read as the text,
and bytes that are no text are repaired.
-/

open List
open String (utf8EncodeChar)

namespace TreeMachine.Utf8

section

variable {b c d e : UInt8} {rest : List UInt8}

lemma between_iff : between lo hi b = true ↔ lo.toNat ≤ b.toNat ∧ b.toNat ≤ hi.toNat := by
  simp [between, UInt8.le_iff_toNat_le]

lemma between_second : between (leastSecond b) (greatestSecond b) c = true ↔
    0x80 ≤ c.toNat ∧ c.toNat ≤ 0xBF ∧ (b.toNat = 0xE0 → 0xA0 ≤ c.toNat) ∧
      (b.toNat = 0xF0 → 0x90 ≤ c.toNat) ∧ (b.toNat = 0xED → c.toNat ≤ 0x9F) ∧
      (b.toNat = 0xF4 → c.toNat ≤ 0x8F) := by
  simp only [between_iff, leastSecond, greatestSecond, beq_iff_eq, ← UInt8.toNat_inj,
    UInt8.reduceToNat]
  split_ifs <;> simp only [UInt8.reduceToNat] <;> omega

lemma ofNat_eq_of_toNat (h : n = b.toNat) : UInt8.ofNat n = b := by
  rw [h, UInt8.ofNat_toNat]

lemma toNat_ofNat_of_lt (h : n < 256) : (UInt8.ofNat n).toNat = n := by
  rw [UInt8.toNat_ofNat']
  exact Nat.mod_eq_of_lt h

lemma val_ofNat (h : n.isValidChar) : (Char.ofNat n).val.toNat = n := by
  simp [Char.ofNat, h, Char.ofNatAux]

/-! ### Sequences of one to four bytes -/

lemma encode_one (hb : b < 0x80) : utf8EncodeChar (Char.ofNat b.toNat) = [b] := by
  rw [UInt8.lt_iff_toNat_lt] at hb
  have hb : b.toNat < 128 := hb
  have hv := val_ofNat (n := b.toNat) (.inl (by omega))
  rw [utf8EncodeChar, hv]
  simp only [show b.toNat ≤ 127 by omega, if_true, UInt8.ofNat_toNat]

lemma encode_two (hb : between 0xC2 0xDF b = true) (hc : between 0x80 0xBF c = true) :
    utf8EncodeChar (Char.ofNat ((b.toNat % 32) * 64 + tailBits c)) = [b, c] := by
  simp only [between_iff, UInt8.reduceToNat] at hb hc
  unfold tailBits
  have hv := val_ofNat (n := b.toNat % 32 * 64 + c.toNat % 64) (.inl (by omega))
  simp only [utf8EncodeChar, hv]
  rw [if_neg (by omega), if_pos (by omega), ofNat_eq_of_toNat (b := b) (by omega),
    ofNat_eq_of_toNat (b := c) (by omega)]

lemma encode_three (hb : between 0xE0 0xEF b = true)
    (hc : between (leastSecond b) (greatestSecond b) c = true) (hd : between 0x80 0xBF d = true) :
    utf8EncodeChar
      (Char.ofNat (((b.toNat % 16) * 64 + tailBits c) * 64 + tailBits d)) = [b, c, d] := by
  rw [between_second] at hc
  simp only [between_iff, UInt8.reduceToNat] at hb hd
  unfold tailBits
  have hv := val_ofNat (n := (b.toNat % 16 * 64 + c.toNat % 64) * 64 + d.toNat % 64)
    (by unfold Nat.isValidChar; omega)
  simp only [utf8EncodeChar, hv]
  rw [if_neg (by omega), if_neg (by omega), if_pos (by omega),
    ofNat_eq_of_toNat (b := b) (by omega), ofNat_eq_of_toNat (b := c) (by omega),
    ofNat_eq_of_toNat (b := d) (by omega)]

lemma encode_four (hb : between 0xF0 0xF4 b = true)
    (hc : between (leastSecond b) (greatestSecond b) c = true) (hd : between 0x80 0xBF d = true)
    (he : between 0x80 0xBF e = true) :
    utf8EncodeChar (Char.ofNat
      ((((b.toNat % 8) * 64 + tailBits c) * 64 + tailBits d) * 64 + tailBits e)) =
        [b, c, d, e] := by
  rw [between_second] at hc
  simp only [between_iff, UInt8.reduceToNat] at hb hd he
  unfold tailBits
  have hv := val_ofNat
    (n := ((b.toNat % 8 * 64 + c.toNat % 64) * 64 + d.toNat % 64) * 64 + e.toNat % 64)
    (by unfold Nat.isValidChar; omega)
  simp only [utf8EncodeChar, hv]
  rw [if_neg (by omega), if_neg (by omega), if_neg (by omega),
    ofNat_eq_of_toNat (b := b) (by omega), ofNat_eq_of_toNat (b := c) (by omega),
    ofNat_eq_of_toNat (b := d) (by omega), ofNat_eq_of_toNat (b := e) (by omega)]

/-- A byte string starts with the encoding of its first character, or its first byte is replaced. -/
lemma next?_cons (b : UInt8) (bs : List UInt8) : ∃ c rest, next? (b :: bs) = some (c, rest) ∧
    (b :: bs = utf8EncodeChar c ++ rest ∨ c = replacement ∧ rest = bs) := by
  have hbad : ∃ c rest, some (replacement, bs) = some (c, rest) ∧
      (b :: bs = utf8EncodeChar c ++ rest ∨ c = replacement ∧ rest = bs) :=
    ⟨_, _, rfl, .inr ⟨rfl, rfl⟩⟩
  unfold next?
  dsimp only
  split_ifs with h1 h2 h3 h4
  · exact ⟨_, _, rfl, .inl (by rw [encode_one h1]; rfl)⟩
  · split
    · split_ifs with hc
      · exact ⟨_, _, rfl, .inl (by rw [encode_two h2 hc]; rfl)⟩
      · exact hbad
    · exact hbad
  · split
    · split_ifs with hc
      · rw [Bool.and_eq_true] at hc
        exact ⟨_, _, rfl, .inl (by rw [encode_three h3 hc.1 hc.2]; rfl)⟩
      · exact hbad
    · exact hbad
  · split
    · split_ifs with hc
      · rw [Bool.and_eq_true, Bool.and_eq_true] at hc
        exact ⟨_, _, rfl, .inl (by rw [encode_four h4 hc.1.1 hc.1.2 hc.2]; rfl)⟩
      · exact hbad
    · exact hbad
  · exact hbad

end

/-- The encoding of a character is read as the character. -/
lemma next?_encode (c : Char) (rest : List UInt8) :
    next? (utf8EncodeChar c ++ rest) = some (c, rest) := by
  have hvalid := c.valid
  unfold UInt32.isValidChar Nat.isValidChar at hvalid
  have hc : ∀ n, n = c.val.toNat → Char.ofNat n = c := by
    rintro n rfl
    exact Char.ofNat_toNat c
  rw [utf8EncodeChar]
  generalize c.val.toNat = v at hvalid hc
  split_ifs with h1 h2 h3
  · have hb : UInt8.ofNat v < 0x80 := by
      rw [UInt8.lt_iff_toNat_lt, toNat_ofNat_of_lt (by omega)]
      exact Nat.lt_succ_of_le h1
    simp only [cons_append, nil_append, next?.eq_def]
    rw [if_pos hb, toNat_ofNat_of_lt (by omega), hc _ rfl]
  · have hb := toNat_ofNat_of_lt (n := v / 64 % 32 + 192) (by omega)
    have hd := toNat_ofNat_of_lt (n := v % 64 + 128) (by omega)
    simp only [cons_append, nil_append, next?.eq_def, UInt8.lt_iff_toNat_lt, between_iff, tailBits,
      hb, hd, UInt8.reduceToNat]
    rw [if_neg (by omega), if_pos (by omega), if_pos (by omega), hc _ (by omega)]
  · have hb := toNat_ofNat_of_lt (n := v / 4096 % 16 + 224) (by omega)
    have hd := toNat_ofNat_of_lt (n := v / 64 % 64 + 128) (by omega)
    have he := toNat_ofNat_of_lt (n := v % 64 + 128) (by omega)
    simp only [cons_append, nil_append, next?.eq_def, Bool.and_eq_true, between_second]
    simp only [UInt8.lt_iff_toNat_lt, between_iff, tailBits, hb, hd, he, UInt8.reduceToNat]
    rw [if_neg (by omega), if_neg (by omega), if_pos (by omega), if_pos (by omega),
      hc _ (by omega)]
  · have hb := toNat_ofNat_of_lt (n := v / 262144 % 8 + 240) (by omega)
    have hd := toNat_ofNat_of_lt (n := v / 4096 % 64 + 128) (by omega)
    have he := toNat_ofNat_of_lt (n := v / 64 % 64 + 128) (by omega)
    have hf := toNat_ofNat_of_lt (n := v % 64 + 128) (by omega)
    simp only [cons_append, nil_append, next?.eq_def, Bool.and_eq_true, between_second]
    simp only [UInt8.lt_iff_toNat_lt, between_iff, tailBits, hb, hd, he, hf, UInt8.reduceToNat]
    rw [if_neg (by omega), if_neg (by omega), if_neg (by omega), if_pos (by omega),
      if_pos (by omega), hc _ (by omega)]

/-! ### Whole byte strings -/

section

variable {b : UInt8} {bs l t rest : List UInt8} {c : Char}

lemma next?_nil : next? [] = none := rfl

lemma next?_cases (h : next? bs = some (c, rest)) :
    bs = utf8EncodeChar c ++ rest ∨ c = replacement ∧ ∃ b, bs = b :: rest := by
  cases bs with
  | nil => cases h
  | cons b bs =>
    obtain ⟨c', rest', hnext, hcases⟩ := next?_cons b bs
    obtain ⟨rfl, rfl⟩ := Prod.mk.inj (Option.some.inj (hnext.symm.trans h))
    exact hcases.imp_right fun ⟨hc, hrest⟩ => ⟨hc, b, by rw [hrest]⟩

lemma length_encodeChar_pos (c : Char) : 0 < (utf8EncodeChar c).length :=
  length_pos_iff.2 String.utf8EncodeChar_ne_nil

lemma length_of_next? (h : next? bs = some (c, rest)) : rest.length < bs.length := by
  rcases next?_cases h with rfl | ⟨-, b, rfl⟩
  · have := length_encodeChar_pos c
    rw [length_append]
    omega
  · exact Nat.lt_succ_self _

lemma not_encoded_of_next? (h : next? (b :: rest) = some (replacement, rest)) (c : Char) (t) :
    b :: rest ≠ utf8EncodeChar c ++ t := by
  intro heq
  rw [heq, next?_encode] at h
  obtain ⟨rfl, rfl⟩ := Prod.mk.inj (Option.some.inj h)
  have hlength := congrArg List.length heq
  rw [length_append, length_cons, show (utf8EncodeChar replacement).length = 3
    from rfl] at hlength
  omega

lemma next?_of_append (h : next? (b :: (l ++ t)) = some (replacement, l ++ t)) :
    next? (b :: l) = some (replacement, l) := by
  obtain ⟨c, rest, hnext, heq | ⟨rfl, rfl⟩⟩ := next?_cons b l
  · refine absurd ?_ (not_encoded_of_next? h c (rest ++ t))
    rw [← cons_append, heq, append_assoc]
  · exact hnext

lemma take_of_length_le (hn : bs.length ≤ n) (hm : bs.length ≤ m) : take n bs = take m bs := by
  induction n generalizing m bs with
  | zero => rw [eq_nil_of_length_eq_zero (Nat.le_zero.1 hn)]; cases m <;> rfl
  | succ n ih =>
    cases m with
    | zero => rw [eq_nil_of_length_eq_zero (Nat.le_zero.1 hm)]; rfl
    | succ m =>
      unfold take
      cases hnext : next? bs with
      | none => rfl
      | some e =>
        obtain ⟨c, rest⟩ := e
        have := length_of_next? hnext
        exact congrArg (c :: ·) (ih (by omega) (by omega))

lemma decode_nil : decode [] = [] := rfl

lemma decode_of_next? (h : next? bs = some (c, rest)) : decode bs = c :: decode rest := by
  have hlt := length_of_next? h
  obtain ⟨n, hn⟩ := Nat.exists_eq_succ_of_ne_zero (Nat.ne_zero_of_lt hlt)
  rw [decode, hn, take, h]
  exact congrArg (c :: ·) (take_of_length_le (by omega) le_rfl)

lemma decode_encodeChar : decode (utf8EncodeChar c ++ bs) = c :: decode bs :=
  decode_of_next? (next?_encode c bs)

lemma decode_induction {P : List UInt8 → Prop} (nil : P [])
    (cons : ∀ bs c rest, next? bs = some (c, rest) → P rest → P bs) (bs : List UInt8) : P bs := by
  induction hn : bs.length using Nat.strong_induction_on generalizing bs with
  | _ n ih =>
    cases bs with
    | nil => exact nil
    | cons b bs =>
      obtain ⟨c, rest, hnext, -⟩ := next?_cons b bs
      exact cons _ c rest hnext (ih _ (hn ▸ length_of_next? hnext) rest rfl)

lemma decode_encode (cs : List Char) : decode (encode cs) = cs := by
  induction cs with
  | nil => rfl
  | cons c cs ih => rw [encode, flatMap_cons, decode_encodeChar]; exact congrArg (c :: ·) ih

/-- A byte string in which each byte outside the encoding of a character is replaced. -/
inductive Repaired : List UInt8 → List UInt8 → Prop where
  | nil : Repaired [] []
  | char {bs out : List UInt8} (c : Char) : Repaired bs out →
    Repaired (utf8EncodeChar c ++ bs) (utf8EncodeChar c ++ out)
  | byte {b : UInt8} {bs out : List UInt8} :
    (∀ c t, b :: bs ≠ utf8EncodeChar c ++ t) → Repaired bs out →
    Repaired (b :: bs) (utf8EncodeChar replacement ++ out)

lemma repaired_decode (bs : List UInt8) : Repaired bs (encode (decode bs)) := by
  induction bs using decode_induction with
  | nil => exact .nil
  | cons bs c rest h ih =>
    rw [decode_of_next? h, encode, flatMap_cons]
    rcases next?_cases h with rfl | ⟨rfl, b, rfl⟩
    · exact .char c ih
    · exact .byte (not_encoded_of_next? h) ih

/-! ### Line ends -/

lemma eq_singleton_of_mem (hb : b ∈ utf8EncodeChar c) (hlow : b < 0x80) :
    utf8EncodeChar c = [b] ∧ c = Char.ofNat b.toNat := by
  have hlow : b.toNat < 128 := UInt8.lt_iff_toNat_lt.1 hlow
  have hc : Char.ofNat c.val.toNat = c := Char.ofNat_toNat c
  unfold utf8EncodeChar at hb ⊢
  dsimp only at hb ⊢
  split_ifs at hb ⊢ with h1 h2 h3
  · obtain rfl := mem_singleton.1 hb
    rw [toNat_ofNat_of_lt (by omega)]
    exact ⟨rfl, hc.symm⟩
  all_goals
    simp only [mem_cons, not_mem_nil, or_false] at hb
    rcases hb with rfl | rfl | rfl | rfl <;> rw [toNat_ofNat_of_lt (by omega)] at hlow <;> omega

end

lemma decode_concat_return (l : List UInt8) : decode (l ++ [13]) = decode l ++ ['\r'] := by
  induction hn : l.length using Nat.strong_induction_on generalizing l with
  | _ n ih =>
    cases l with
    | nil => rfl
    | cons b l =>
      obtain ⟨c, rest, hnext, heq | ⟨rfl, rfl⟩⟩ := next?_cons b (l ++ [13])
      · rcases eq_nil_or_concat rest with rfl | ⟨rest, x, rfl⟩
        · -- The carriage return would be part of the character before it.
          rw [List.append_nil] at heq
          obtain ⟨hone, -⟩ := eq_singleton_of_mem (b := 13) (c := c)
            (by rw [← heq]; simp) (by decide)
          rw [hone] at heq
          simp at heq
        · have heq' : b :: l ++ [13] = utf8EncodeChar c ++ rest ++ [x] := by simpa using heq
          obtain ⟨hl, -⟩ := append_inj' heq' rfl
          have hlt := congrArg List.length hl
          have hpos := length_encodeChar_pos c
          rw [length_append] at hlt
          rw [hl, append_assoc, decode_encodeChar, decode_encodeChar, ih _ (by omega) rest rfl]
          rfl
      · have hl := next?_of_append hnext
        rw [cons_append, decode_of_next? hnext, ih _ (hn ▸ Nat.lt_succ_self _) l rfl,
          decode_of_next? hl]
        rfl

lemma return_of_decode (l : List UInt8) (h : decode l = cs ++ ['\r']) : ∃ l', l = l' ++ [13] := by
  induction l using decode_induction generalizing cs with
  | nil => simp [decode_nil] at h
  | cons l c rest hnext ih =>
    rw [decode_of_next? hnext] at h
    cases cs with
    | nil =>
      obtain ⟨rfl, hrest⟩ := List.cons.inj h
      cases rest with
      | nil =>
        rcases next?_cases hnext with rfl | ⟨hc, -⟩
        · exact ⟨[], rfl⟩
        · exact absurd hc (by decide)
      | cons b rest =>
        obtain ⟨c, rest', hnext, -⟩ := next?_cons b rest
        rw [decode_of_next? hnext] at hrest
        cases hrest
    | cons c' cs =>
      obtain ⟨l', rfl⟩ := ih (List.cons.inj h).2
      rcases next?_cases hnext with rfl | ⟨-, b, rfl⟩
      · exact ⟨utf8EncodeChar c ++ l', (append_assoc ..).symm⟩
      · exact ⟨b :: l', rfl⟩

/-! ### Codes -/

lemma codeOfChar_toInt (c : Char) : (codeOfChar c).toInt = c.toNat := by
  have hvalid : c.toNat.isValidChar := c.valid
  unfold Nat.isValidChar at hvalid
  exact Int32.toInt_ofNat_of_lt (by omega)

lemma charOfCode_codeOfChar (c : Char) : charOfCode (codeOfChar c) = c := by
  have hint := codeOfChar_toInt c
  have hvalid : c.toNat.isValidChar := c.valid
  unfold Nat.isValidChar at hvalid
  unfold charOfCode
  rw [hint, Int.toNat_natCast, if_neg, Char.ofNat_toNat]
  rw [Int32.lt_iff_toInt_lt, hint]
  have hzero : (0 : Int32).toInt = 0 := rfl
  omega

lemma codeOfChar_inj : codeOfChar c = codeOfChar d ↔ c = d := by
  refine ⟨fun h => ?_, congrArg codeOfChar⟩
  rw [← charOfCode_codeOfChar c, h, charOfCode_codeOfChar]

end TreeMachine.Utf8
