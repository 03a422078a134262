import Mathlib
import TreeMachine.Command.Call
import TreeMachine.Proofs.Decimals

/-!
# Spellings of calls

A call can be typed with parentheses around its arguments, separated by commas and white
space, or without them. All spellings are read as the same call, and a line with a word in it
is always read or refused: no place outside the line is looked at.
-/

open List

namespace TreeMachine.Text

variable {α : Type} {sep : α → Bool}

/-- Words with separators around them, at least one between two words. -/
inductive Spaced (sep : α → Bool) : List (List α) → List α → Prop where
  | gap {gap} : gap.all sep = true → Spaced sep [] gap
  | word (gap : List α) {word words rest} : gap.all sep = true → word ≠ [] →
    word.any sep = false → Spaced sep words rest → rest.head?.all sep = true →
    Spaced sep (word :: words) (gap ++ word ++ rest)

lemma wordsFrom_word {word : List α} (hword : word.any sep = false) (before rest : List α) :
    wordsFrom sep before (word ++ rest) = wordsFrom sep (word.reverse ++ before) rest := by
  induction word generalizing before with
  | nil => rfl
  | cons c word ih =>
    rw [any_cons, Bool.or_eq_false_iff] at hword
    simp [wordsFrom, hword.1, ih hword.2]

lemma wordsBy_gap {gap : List α} (hgap : gap.all sep = true) (rest : List α) :
    wordsBy sep (gap ++ rest) = wordsBy sep rest := by
  induction gap with
  | nil => rfl
  | cons c gap ih =>
    rw [all_cons, Bool.and_eq_true] at hgap
    simpa [wordsBy, wordsFrom, hgap.1] using ih hgap.2

lemma wordsBy_of_spaced {words : List (List α)} {line : List α} (h : Spaced sep words line) :
    wordsBy sep line = words := by
  induction h with
  | gap hgap => simpa [wordsBy, wordsFrom] using wordsBy_gap hgap []
  | @word gap word words rest hgap hne hword _ hrest ih =>
    rw [append_assoc, wordsBy_gap hgap, wordsBy, wordsFrom_word hword, ← ih]
    cases rest with
    | nil => simp [wordsFrom, wordsBy, hne]
    | cons c rest =>
      have hc : sep c = true := by simpa using hrest
      simp [wordsFrom, wordsBy, hc, hne]

lemma Spaced.mem {words : List (List α)} {line : List α} {c : α} (h : Spaced sep words line)
    (hc : c ∈ line) : sep c = true ∨ ∃ word ∈ words, c ∈ word := by
  induction h with
  | gap hgap => exact .inl (all_eq_true.1 hgap c hc)
  | word gap hgap _ _ _ _ ih =>
    rw [append_assoc, mem_append, mem_append] at hc
    rcases hc with hc | hc | hc
    · exact .inl (all_eq_true.1 hgap c hc)
    · exact .inr ⟨_, mem_cons_self, hc⟩
    · exact (ih hc).imp_right fun h => h.imp fun _ h => ⟨mem_cons_of_mem _ h.1, h.2⟩

lemma wordsFrom_ne_nil {before line : List α}
    (h : before ≠ [] ∨ line.any (!sep ·) = true) : wordsFrom sep before line ≠ [] := by
  induction line generalizing before with
  | nil => simpa [wordsFrom] using h
  | cons c line ih =>
    rw [wordsFrom]
    by_cases hc : sep c = true
    · rw [if_pos hc]
      split
      next hbefore => exact ih (by simp_all)
      next => exact cons_ne_nil _ _
    · rw [if_neg hc]
      exact ih (.inl (cons_ne_nil _ _))

end TreeMachine.Text

namespace TreeMachine.Command.Call

open Text

/-- The texts of arguments. -/
def texts (args : List Int32) : List (List Char) :=
  args.map fun v => (Decimal.ofInt32 v).toList

variable {α : Type} {char? : α → Option Char} {line : List α} {quote : List α → String}

lemma crash?_ofWords {name : List α} {args : List (List α)} {t : Trouble α}
    (h : ofWords char? name args = .error t) : (t.error quote).crash? = none := by
  have hargs : ∀ (words : List (List α)) i, readArgs char? i words = .error t →
      (t.error quote).crash? = none := by
    intro words
    induction words with
    | nil => intro i h; cases h
    | cons word words ih =>
      intro i h
      rw [readArgs] at h
      split at h
      next => cases h; rfl
      next =>
        cases hrest : readArgs char? (i + 1) words with
        | error t' => rw [hrest] at h; cases h; exact ih _ hrest
        | ok vs => rw [hrest] at h; cases h
  rw [ofWords] at h
  split at h
  next => cases h; rfl
  next =>
    cases hread : readArgs char? 1 args with
    | error t' => rw [hread] at h; cases h; exact hargs _ _ hread
    | ok vs => rw [hread] at h; cases h

/-- A line up to its first opening parenthesis, which is not its last symbol, and the line
between that parenthesis and its last symbol can be cut out. -/
lemma cut_parts (before inner : List α) (opened closed : α) :
    cut (before ++ opened :: inner ++ [closed]) 0 before.length = .ok before ∧
      cut (before ++ opened :: inner ++ [closed]) (before.length + 1)
        ((before ++ opened :: inner ++ [closed]).length - 1) = .ok inner := by
  constructor
  · simp [cut]
  · have hlength : (before ++ opened :: inner ++ [closed]).length - 1 =
        (before ++ opened :: inner).length := by simp
    rw [hlength, cut, if_pos (by simp), take_left]
    simp [drop_append]

/-- If a line with an opening parenthesis ends with a closing one, there is something between
them, though it may be empty. -/
lemma parts_of_findIdx? {l : List α} {i : Nat}
    (hopen : l.findIdx? (isChar char? (· == '(')) = some i)
    (hclose : l.getLast?.any (isChar char? (· == ')')) = true) :
    ∃ before opened inner closed, l = before ++ opened :: inner ++ [closed] ∧
      before.length = i := by
  obtain ⟨hi, hopened, -⟩ := List.findIdx?_eq_some_iff_getElem.1 hopen
  have hl : l = l.take i ++ l[i] :: l.drop (i + 1) := by
    rw [← drop_eq_getElem_cons hi, take_append_drop]
  obtain hnil | ⟨inner, closed, hinner⟩ := (l.drop (i + 1)).eq_nil_or_concat
  · have hlast : l.length - 1 = i := by
      have := drop_eq_nil_iff.1 hnil
      omega
    rw [List.getLast?_eq_getElem?, hlast, List.getElem?_eq_getElem hi] at hclose
    simp only [isChar, Option.any_some, Option.any_eq_true, beq_iff_eq] at hclose hopened
    obtain ⟨_, hclose, rfl⟩ := hclose
    obtain ⟨_, hopened, rfl⟩ := hopened
    exact absurd (hopened.symm.trans hclose) (by decide)
  · exact ⟨l.take i, l[i], inner, closed, by simpa [hinner] using hl, by simp; omega⟩

lemma crash?_readLine {t : Trouble α} (hline : line.any (!isChar char? isBlank ·) = true)
    (h : readLine char? line = .error t) : (t.error quote).crash? = none := by
  rw [readLine] at h
  split at h
  next i hopen =>
    split at h
    next hclose =>
      obtain ⟨before, opened, inner, closed, rfl, rfl⟩ := parts_of_findIdx? hopen hclose
      obtain ⟨hname, hinner⟩ := cut_parts before inner opened closed
      rw [hname, hinner] at h
      exact crash?_ofWords h
    next => cases h; rfl
  next =>
    split at h
    next hwords => exact absurd hwords (wordsFrom_ne_nil (.inr hline))
    next => exact crash?_ofWords h

/-! ### Calls -/

lemma readArgs_texts (args : List Int32) (i : Nat) : readArgs some i (texts args) = .ok args := by
  induction args generalizing i with
  | nil => rfl
  | cons v args ih =>
    have hspells := Decimal.spells_toString v.toInt
    obtain ⟨hne, hblank⟩ := hspells.not_blank
    have hread : readArg? some (Decimal.ofInt32 v).toList = some v := by
      have htrim : trim (toString v.toInt).toList = (toString v.toInt).toList := by
        simpa using trim_eq (by simp : ∀ c ∈ [] ++ [], isBlank c = true) hne hblank
      have hchars : (toString v.toInt).toList.mapM some = some (toString v.toInt).toList := by
        simpa using mapM_pure (m := Option) (l := (toString v.toInt).toList) (f := id)
      rw [readArg?, Decimal.ofInt32, hchars]
      exact (congrArg Decimal.int32? htrim).trans (Decimal.int32?_eq_some_iff.2 hspells)
    rw [texts, map_cons, readArgs, hread]
    exact congrArg (· >>= _) (ih _)

lemma ofWords_name {name : List Char} (hne : name ≠ []) (hblank : ∀ c ∈ name, isBlank c = false)
    (args : List Int32) :
    ofWords some name (texts args) = .ok (name, args) := by
  have hname : (name.isEmpty || name.any (isChar some fun c => c == ' ' || c == '\t')) = false := by
    simp only [Bool.or_eq_false_iff, isEmpty_eq_false_iff, any_eq_false]
    refine ⟨hne, fun c hc => ?_⟩
    have := hblank c hc
    rintro h
    simp [isChar] at h
    rcases h with rfl | rfl <;> cases this
  rw [ofWords, hname, readArgs_texts]
  rfl

lemma parse_of_readLine {line name : List Char} {args : List Int32}
    (h : readLine some line = .ok (name, args)) :
    parse (String.ofList line) = .ok { name := String.ofList name, args } := by
  rw [parse, String.toList_ofList, h]

lemma readLine_closed {name before after inner : List Char} {args : List Int32}
    (hne : name ≠ []) (hname : ∀ c ∈ name, isBlank c = false ∧ c ≠ '(')
    (hgaps : ∀ c ∈ before ++ after, isBlank c = true)
    (hargs : Spaced (fun c => c == ',' || isBlank c) (texts args) inner) :
    readLine some (before ++ name ++ after ++ '(' :: inner ++ [')']) = .ok (name, args) := by
  have hnone : (before ++ name ++ after).findIdx? (isChar some (· == '(')) = none := by
    rw [List.findIdx?_eq_none_iff]
    simp only [mem_append] at hgaps ⊢
    grind [isChar, isBlank]
  have hopen : (before ++ name ++ after ++ '(' :: inner ++ [')']).findIdx?
      (isChar some (· == '(')) = some (before ++ name ++ after).length := by
    rw [append_assoc, List.findIdx?_append, hnone]
    simp [isChar, List.findIdx?_cons]
  have hclose : (before ++ name ++ after ++ '(' :: inner ++ [')']).getLast?.any
      (isChar some (· == ')')) = true := by
    rw [List.getLast?_concat]
    rfl
  obtain ⟨hcut, hinner⟩ := cut_parts (before ++ name ++ after) inner '(' ')'
  have htrim : trimBy (isChar some isBlank) (before ++ name ++ after) = name :=
    trim_eq hgaps hne fun c hc => (hname c hc).1
  have hwords : wordsBy (isChar some fun c => c == ',' || isBlank c) inner = _ :=
    wordsBy_of_spaced hargs
  rw [readLine, hopen]
  simp only [hclose, if_true, hcut, hinner, bind, Except.bind, htrim, hwords]
  exact ofWords_name hne (fun c hc => (hname c hc).1) args

lemma readLine_open {name line : List Char} {args : List Int32}
    (hne : name ≠ []) (hname : ∀ c ∈ name, isBlank c = false ∧ c ≠ '(')
    (hline : Spaced isBlank (name :: texts args) line) :
    readLine some line = .ok (name, args) := by
  have hopen : line.findIdx? (isChar some (· == '(')) = none := by
    rw [List.findIdx?_eq_none_iff]
    intro c hc
    simp only [isChar, Option.any_some, beq_eq_false_iff_ne]
    rintro rfl
    obtain hblank | ⟨word, hword, hc⟩ := hline.mem hc
    · cases hblank
    · rcases mem_cons.1 hword with rfl | hword
      · exact (hname _ hc).2 rfl
      · obtain ⟨v, -, rfl⟩ := mem_map.1 hword
        rcases (Decimal.spells_toString v.toInt).mem hc with h | h | h <;> cases h
  have hwords : wordsBy (isChar some isBlank) line = _ := wordsBy_of_spaced hline
  rw [readLine, hopen]
  simp only [hwords, ofWords_name hne fun c hc => (hname c hc).1]

/-- Whether the arguments of a call stand in parentheses or not, the call is the same, and a
line with anything but white space in it is read or refused, also one of other symbols than
characters. -/
theorem spellings_agree (name : String) (hne : name ≠ "")
    (hname : ∀ c ∈ name.toList, isBlank c = false ∧ c ≠ '(') (args : List Int32) :
    (∀ before after inner, (∀ c ∈ before ++ after, isBlank c = true) →
        Spaced (fun c => c == ',' || isBlank c) (texts args)
          inner →
        parse (String.ofList (before ++ name.toList ++ after ++ '(' :: inner ++ [')'])) =
          .ok { name, args }) ∧
      (∀ line, Spaced isBlank (name.toList :: texts args) line →
        parse (String.ofList line) = .ok { name, args }) ∧
      (∀ line : String, line.toList.any (!isBlank ·) = true →
        ∀ e, parse line = .error e → e.crash? = none) ∧
      ∀ {α : Type} (char? : α → Option Char) (quote : List α → String) (line : List α),
        line.any (!isChar char? isBlank ·) = true →
        ∀ t, readLine char? line = .error t → (t.error quote).crash? = none := by
  have hne : name.toList ≠ [] := by simpa using hne
  refine ⟨fun before after inner hgaps hargs => ?_, fun line hline => ?_, fun line hline e h => ?_,
    fun _ _ _ hline _ h => crash?_readLine hline h⟩
  · simpa using parse_of_readLine (readLine_closed hne hname hgaps hargs)
  · simpa using parse_of_readLine (readLine_open hne hname hline)
  · rw [parse] at h
    split at h <;> cases h
    next t ht => exact crash?_readLine hline ht

/-- The least and the greatest argument, in both spellings. -/
theorem spellings_agree_extremes :
    parse " f\t(-2147483648,\t 2147483647)" = .ok ⟨"f", [-2147483648, 2147483647]⟩ ∧
      parse "f\t-2147483648  2147483647" = .ok ⟨"f", [-2147483648, 2147483647]⟩ := by
  obtain ⟨hclosed, hopen, -⟩ := spellings_agree "f" (by decide) (by simp [isBlank])
    [-2147483648, 2147483647]
  have htexts : texts [-2147483648, 2147483647] =
      ["-2147483648".toList, "2147483647".toList] := by decide +kernel
  rw [htexts] at hclosed hopen
  have hlast : ∀ (sep : Char → Bool) (gap : List Char), gap.all sep = true →
      "2147483647".toList.any sep = false →
      Spaced sep ["2147483647".toList] (gap ++ "2147483647".toList ++ []) :=
    fun sep gap hgap hsep => .word gap hgap (by decide) hsep (.gap rfl) rfl
  constructor
  · exact hclosed [' '] ['\t'] "-2147483648,\t 2147483647".toList (by simp [isBlank])
      (.word [] rfl (by decide) (by decide) (hlast _ [',', '\t', ' '] rfl (by decide)) rfl)
  · exact hopen "f\t-2147483648  2147483647".toList (.word [] rfl (by decide) (by decide)
      (.word ['\t'] rfl (by decide) (by decide) (hlast _ [' ', ' '] rfl (by decide)) rfl) rfl)

end TreeMachine.Command.Call
