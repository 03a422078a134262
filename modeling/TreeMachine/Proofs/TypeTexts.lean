import Mathlib
import TreeMachine.Tree.Ty

/-!
# Types in text

Which texts are read as types, and as which: a base name and bracket pairs with white space
around them, or nothing but white space. The text of a type is read back as the type, and is
what is left of every text of it without the white space.
-/

open List

namespace TreeMachine.Tree.Ty

open Text

/-- A number of bracket pairs with white space around them. -/
inductive Layers : List Char → Nat → Prop where
  | nil : Layers [] 0
  | blank {c cs n} : isBlank c = true → Layers cs n → Layers (c :: cs) n
  | pair {cs n} : Layers cs n → Layers ('[' :: ']' :: cs) (n + 1)

/-- A base name and a number of bracket pairs, with white space around them. -/
def Spells (base : String) (n : Nat) (cs : List Char) : Prop :=
  ∃ gap rest, cs = gap ++ base.toList ++ rest ∧ gap.all isBlank = true ∧ Layers rest n

/-- The texts of a type. -/
inductive Written (cs : List Char) : Ty → Prop where
  | blank : cs.all isBlank = true → Written cs void
  | void : Spells "void" 0 cs → Written cs void
  | int {n} : Spells "int" n cs → Written cs (layers int n)
  | bool {n} : Spells "bool" n cs → Written cs (layers bool n)

def brackets (n : Nat) : List Char :=
  (List.replicate n ['[', ']']).flatten

variable {cs rest gap : List Char} {n : Nat} {base : String}

lemma layers_of_blank (h : gap.all isBlank = true) : Layers gap 0 := by
  induction gap with
  | nil => exact .nil
  | cons c gap ih =>
    rw [all_cons, Bool.and_eq_true] at h
    exact .blank h.1 (ih h.2)

namespace Layers

lemma append {ds m} (h : Layers cs n) (hds : Layers ds m) : Layers (cs ++ ds) (n + m) := by
  induction h with
  | nil => simpa using hds
  | blank hc _ ih => exact .blank hc ih
  | pair _ ih => simpa [add_right_comm] using Layers.pair ih

lemma filter (h : Layers cs n) : cs.filter (!isBlank ·) = brackets n := by
  induction h with
  | nil => rfl
  | blank hc _ ih => rw [filter_cons_of_neg (by simp [hc]), ih]
  | pair _ ih => rw [filter_cons_of_pos (by rfl), filter_cons_of_pos (by rfl), ih]; rfl

lemma all_blank (h : Layers cs 0) : cs.all isBlank = true := by
  generalize hn : 0 = n at h
  induction h with
  | nil => rfl
  | blank hc _ ih => simp [hc, ih hn]
  | pair => omega

end Layers

lemma layers_brackets (n : Nat) : Layers (brackets n) n := by
  induction n with
  | zero => exact .nil
  | succ n ih => exact .pair ih

lemma text_layers (base : Ty) (n : Nat) :
    (layers base n).text.toList = base.text.toList ++ brackets n := by
  induction n with
  | zero => simp [layers, brackets]
  | succ n ih =>
    rw [layers, text, String.toList_append, ih, brackets, brackets, replicate_succ',
      flatten_append, append_assoc]
    rfl

/-! ### Stripping brackets -/

lemma stripLayers_blank {c : Char} (hc : isBlank c = true) (cs : List Char) :
    stripLayers (c :: cs) = stripLayers cs := by
  rw [stripLayers.eq_2]
  · simp [hc]
  · rintro _ rfl
    cases hc

lemma stripLayers_reverse (h : Layers rest n) (cs : List Char) :
    stripLayers (rest.reverse ++ cs) = ((stripLayers cs).1 + n, (stripLayers cs).2) := by
  induction h generalizing cs with
  | nil => rfl
  | blank hc _ ih => simp [ih, stripLayers_blank hc]
  | pair _ ih => simp [ih, stripLayers, add_assoc, add_comm 1]

/-- What is stripped is bracket pairs and white space. -/
lemma layers_stripLayers (cs : List Char) :
    ∃ rest, cs.reverse = (stripLayers cs).2.reverse ++ rest ∧ Layers rest (stripLayers cs).1 := by
  fun_induction stripLayers cs with
  | case1 cs n base hcs ih =>
    obtain ⟨rest, heq, hrest⟩ := ih
    simp only [hcs] at heq hrest
    exact ⟨rest ++ ['[', ']'], by simp [heq], hrest.append (.pair .nil)⟩
  | case2 c cs _ hc ih =>
    obtain ⟨rest, heq, hrest⟩ := ih
    exact ⟨rest ++ [c], by simp [heq], hrest.append (.blank hc .nil)⟩
  | case3 c cs => exact ⟨[], by simp, .nil⟩
  | case4 => exact ⟨[], rfl, .nil⟩

/-! ### Reading -/

lemma dropWhile_blank (hgap : gap.all isBlank = true) (cs : List Char) :
    (gap ++ cs).dropWhile isBlank = cs.dropWhile isBlank :=
  dropWhile_append_of_pos (all_eq_true.1 hgap)

/-- A text with a base name is read as the base name and the bracket pairs. -/
lemma strip_of_spells (h : Spells base n cs)
    (hbase : base = "void" ∨ base = "int" ∨ base = "bool") :
    (stripLayers cs.reverse).1 = n ∧
      String.ofList ((stripLayers cs.reverse).2.reverse.dropWhile isBlank) = base := by
  obtain ⟨gap, rest, rfl, hgap, hrest⟩ := h
  rw [reverse_append, stripLayers_reverse hrest]
  have hstop : stripLayers (gap ++ base.toList).reverse = (0, (gap ++ base.toList).reverse) := by
    rcases hbase with rfl | rfl | rfl <;> simp [stripLayers, isBlank]
  rw [hstop, reverse_reverse, dropWhile_blank hgap]
  rcases hbase with rfl | rfl | rfl <;> simp [isBlank]

lemma parse_of_written {s : String} {t : Ty} (h : Written s.toList t) : parse s = some t := by
  cases h with
  | blank h =>
    have hstrip := stripLayers_reverse (layers_of_blank h) []
    simp_all [parse, stripLayers]
  | void h =>
    obtain ⟨hn, hbase⟩ := strip_of_spells h (by simp)
    simp [parse, hn, hbase]
  | int h =>
    obtain ⟨hn, hbase⟩ := strip_of_spells h (by simp)
    simp [parse, hn, hbase]
  | bool h =>
    obtain ⟨hn, hbase⟩ := strip_of_spells h (by simp)
    simp [parse, hn, hbase]

lemma written_of_parse {s : String} {t : Ty} (h : parse s = some t) : Written s.toList t := by
  obtain ⟨rest, heq, hrest⟩ := layers_stripLayers s.toList.reverse
  rw [reverse_reverse] at heq
  rw [parse] at h
  generalize stripLayers s.toList.reverse = r at h heq hrest
  obtain ⟨n, cs⟩ := r
  have hspells : ∀ base, String.ofList (cs.reverse.dropWhile isBlank) = base →
      Spells base n s.toList := by
    rintro _ rfl
    exact ⟨cs.reverse.takeWhile isBlank, rest, by simp [heq], all_takeWhile, hrest⟩
  dsimp only at h
  split at h
  next hbase => cases h; exact .int (hspells _ hbase)
  next hbase => cases h; exact .bool (hspells _ hbase)
  next hbase =>
    split at h <;> cases h
    subst n
    exact .void (hspells _ hbase)
  next hbase =>
    split at h <;> cases h
    subst n
    obtain ⟨gap, rest, hs, hgap, hrest⟩ := hspells _ hbase
    refine .blank ?_
    rw [hs, all_append, all_append, hgap, hrest.all_blank]
    rfl
  next => cases h

lemma parse_eq_some_iff {s : String} {t : Ty} : parse s = some t ↔ Written s.toList t :=
  ⟨written_of_parse, parse_of_written⟩

/-- The white space of a text taken away, the text of the type is left. -/
lemma text_of_spells (base : Ty) (h : Spells base.text n cs)
    (hbase : base.text.toList ≠ [] ∧ base.text.toList.all (!isBlank ·) = true) :
    (layers base n).text =
      if cs.all isBlank then "void" else String.ofList (cs.filter (!isBlank ·)) := by
  obtain ⟨gap, rest, rfl, hgap, hrest⟩ := h
  have hnone : gap.filter (!isBlank ·) = [] := by simpa using hgap
  have hkept := filter_eq_self.2 (all_eq_true.1 hbase.2)
  have hfilter : (gap ++ base.text.toList ++ rest).filter (!isBlank ·) =
      (layers base n).text.toList := by
    rw [filter_append, filter_append, hnone, hrest.filter, hkept, text_layers]
    rfl
  rw [hfilter, String.ofList_toList, if_neg]
  intro hall
  simp only [all_append, Bool.and_eq_true, all_eq_true] at hall
  obtain ⟨c, hc⟩ := exists_mem_of_ne_nil _ hbase.1
  simpa [hall.1.2 c hc] using all_eq_true.1 hbase.2 c hc

lemma text_of_written {t : Ty} (h : Written cs t) :
    t.text = if cs.all isBlank then "void" else String.ofList (cs.filter (!isBlank ·)) := by
  cases h with
  | blank h => rw [if_pos h]; rfl
  | void h => exact text_of_spells .void h (by decide)
  | int h => exact text_of_spells .int h (by decide)
  | bool h => exact text_of_spells .bool h (by decide)

/-- The text of a type is read as the type. A text is read as a type if it is blank, or a
base name and bracket pairs with white space around them; the text of the type is then what
is left without the white space. -/
theorem parse_exact (s : String) :
    (parse void.text = some void ∧ ∀ n, parse (layers int n).text = some (layers int n) ∧
        parse (layers bool n).text = some (layers bool n)) ∧
      ((∃ t, parse s = some t) ↔ s.toList.all isBlank = true ∨ Spells "void" 0 s.toList ∨
        ∃ n, Spells "int" n s.toList ∨ Spells "bool" n s.toList) ∧
      ∀ t, parse s = some t → t.text = if s.toList.all isBlank then "void"
        else String.ofList (s.toList.filter (!isBlank ·)) := by
  have hbase : ∀ base n, Spells base.text n (layers base n).text.toList := fun base n =>
    ⟨[], brackets n, by rw [text_layers]; rfl, rfl, layers_brackets n⟩
  refine ⟨⟨parse_of_written (.void (hbase .void 0)), fun n =>
    ⟨parse_of_written (.int (hbase .int n)), parse_of_written (.bool (hbase .bool n))⟩⟩, ?_,
    fun t h => text_of_written (parse_eq_some_iff.1 h)⟩
  simp only [parse_eq_some_iff]
  constructor
  · rintro ⟨_, h | h | h | h⟩
    · exact .inl h
    · exact .inr (.inl h)
    · exact .inr (.inr ⟨_, .inl h⟩)
    · exact .inr (.inr ⟨_, .inr h⟩)
  · rintro (h | h | ⟨n, h | h⟩)
    · exact ⟨_, .blank h⟩
    · exact ⟨_, .void h⟩
    · exact ⟨_, .int h⟩
    · exact ⟨_, .bool h⟩

end TreeMachine.Tree.Ty
