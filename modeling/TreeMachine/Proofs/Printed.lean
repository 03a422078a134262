import TreeMachine.Linear.Listing
import TreeMachine.Proofs.Decimals
import TreeMachine.Proofs.Subtrees

/-!
# The text of code

Layouts are compared through the texts of their nodes. That is enough as long as no name has one of
the characters that separate and enclose the parts of a text, no operator is undefined and
no statement is missing: then a text can be read in one way only.
-/

open List
open String (toList_append)

namespace TreeMachine.Structured

/-- The characters that separate and enclose the parts of a text. -/
def isDelimiter (c : Char) : Bool :=
  c = '(' || c = ')' || c = ',' || c = ';'

def Undelimited (name : String) : Prop :=
  ∀ c ∈ name.toList, isDelimiter c = false

mutual

/-- A statement without gaps and undefined operators, whose names have no delimiters. -/
def Stmt.Legible : Stmt → Prop
  | .seq ss => Stmt.LegibleAll ss
  | .move target src => target.Legible ∧ src.Legible
  | .exp x => x.Legible
  | .jump target => target.Legible
  | .cjump cond yes no => cond.Legible ∧ Undelimited yes ∧ Undelimited no
  | .label name => Undelimited name
  | .ret values => Expr.LegibleAll values
  | .call _ target args => target.Legible ∧ Expr.LegibleAll args
  | .skip => False

/-- An expression without gaps and undefined operators, whose names have no delimiters. -/
def Expr.Legible : Expr → Prop
  | .const _ => True
  | .temp reg => Undelimited reg
  | .mem addr => addr.Legible
  | .name label => Undelimited label
  | .binop op left right => op ∈ BinOp.defined ∧ left.Legible ∧ right.Legible
  | .unop op x => (op = .neg ∨ op = .not) ∧ x.Legible
  | .call target args => target.Legible ∧ Expr.LegibleAll args
  | .eseq s x => s.Legible ∧ x.Legible

def Stmt.LegibleAll : List Stmt → Prop
  | [] => True
  | s :: ss => s.Legible ∧ Stmt.LegibleAll ss

def Expr.LegibleAll : List Expr → Prop
  | [] => True
  | x :: xs => x.Legible ∧ Expr.LegibleAll xs

end

mutual

lemma Stmt.Legible.hasGap : {s : Stmt} → s.Legible → s.hasGap = false
  | .seq _, h => Stmt.LegibleAll.anyGap h
  | .move .., _ | .exp _, _ | .jump _, _ | .cjump .., _ | .label _, _ | .ret _,
    _ | .call .., _ => rfl

lemma Stmt.LegibleAll.anyGap : {ss : List Stmt} → Stmt.LegibleAll ss → Stmt.anyGap ss = false
  | [], _ => rfl
  | _ :: _, ⟨hs, hss⟩ => by rw [Stmt.anyGap, hs.hasGap, Stmt.LegibleAll.anyGap hss]; rfl

end

/-! ### Reading a text back -/

/-- A text ends here: nothing follows, or a delimiter. -/
def Closed (u : List Char) : Prop :=
  ∀ c ∈ u.head?, isDelimiter c = true

lemma ends_close (u : List Char) : Closed (")".toList ++ u) := by
  simp [Closed, isDelimiter]

lemma ends_comma (u : List Char) : Closed (", ".toList ++ u) := by
  simp [Closed, isDelimiter]

lemma ends_semicolon (u : List Char) : Closed ("; ".toList ++ u) := by
  simp [Closed, isDelimiter]

lemma word_of_append {p : Char → Bool} {n m u v : List Char} (hn : ∀ c ∈ n, p c = false)
    (hm : ∀ c ∈ m, p c = false) (hu : ∀ c ∈ u.head?, p c = true) (hv : ∀ c ∈ v.head?, p c = true)
    (h : n ++ u = m ++ v) : n = m ∧ u = v := by
  induction n generalizing m with
  | nil =>
    cases m with
    | nil => exact ⟨rfl, h⟩
    | cons d m =>
      rw [nil_append] at h
      have hd := hu d (by rw [h]; rfl)
      rw [hm d mem_cons_self] at hd
      cases hd
  | cons c n ih =>
    cases m with
    | nil =>
      rw [nil_append] at h
      have hc := hv c (by rw [← h]; rfl)
      rw [hn c mem_cons_self] at hc
      cases hc
    | cons d m =>
      obtain ⟨rfl, htail⟩ := List.cons.inj h
      obtain ⟨rfl, rfl⟩ := ih (fun c hc => hn c (mem_cons_of_mem _ hc))
        (fun c hc => hm c (mem_cons_of_mem _ hc)) htail
      exact ⟨rfl, rfl⟩

lemma name_of_append (hn : Undelimited n) (hm : Undelimited m) (hu : Closed u) (hv : Closed v)
    (h : n.toList ++ u = m.toList ++ v) : n = m ∧ u = v :=
  (word_of_append hn hm hu hv h).imp_left String.toList_inj.1

lemma number_of_append {p : Char → Bool} (hplus : p '+' = false) (hminus : p '-' = false)
    (hd : ∀ c, c.isDigit → p c = false)
    {n m : Int} {u v : List Char} (hu : ∀ c ∈ u.head?, p c = true) (hv : ∀ c ∈ v.head?, p c = true)
    (h : (toString n).toList ++ u = (toString m).toList ++ v) : n = m ∧ u = v := by
  have hword : ∀ n : Int, ∀ c ∈ (toString n).toList, p c = false := fun n c hc => by
    rcases (Decimal.spells_toString n).mem hc with rfl | rfl | hc
    · exact hplus
    · exact hminus
    · exact hd c hc
  obtain ⟨heq, rfl⟩ := word_of_append (hword n) (hword m) hu hv h
  exact ⟨Decimal.toString_inj (String.toList_inj.1 heq), rfl⟩

section

variable {α : Type} {text : α → List Char} {ok : α → Prop}

/-- A thing whose text cannot be taken for another one's, nor for the start of one. -/
def Distinctive (text : α → List Char) (ok : α → Prop) (a : α) : Prop :=
  ∀ b u v, ok b → Closed u → Closed v → text a ++ u = text b ++ v → a = b ∧ u = v

lemma list_of_append {sep : List Char} (hsep : ∀ u, Closed (sep ++ u))
    (hclose : ∀ u v, sep ++ u ≠ ")".toList ++ v) (hletter : ∀ a, ok a → ∀ u, ¬Closed (text a ++ u))
    {as bs : List α} (has : ∀ a ∈ as, ok a ∧ Distinctive text ok a) (hbs : ∀ b ∈ bs, ok b)
    {u v : List Char} (h : sep.intercalate (as.map text) ++ (")".toList ++ u) =
      sep.intercalate (bs.map text) ++ (")".toList ++ v)) : as = bs ∧ u = v := by
  have hstart : ∀ a as, ok a → ∀ u, ¬Closed (sep.intercalate (List.map text (a :: as)) ++ u) := by
    intro a as ha u
    cases as with
    | nil =>
      rw [map_singleton, intercalate_singleton]
      exact hletter a ha u
    | cons a' as =>
      rw [map_cons, map_cons, intercalate_cons_cons, append_assoc, append_assoc]
      exact hletter a ha _
  induction as generalizing bs with
  | nil =>
    cases bs with
    | nil => exact ⟨rfl, append_cancel_left h⟩
    | cons b bs =>
      refine absurd (ends_close u) ?_
      rw [show ")".toList ++ u = _ from h]
      exact hstart b bs (hbs b mem_cons_self) _
  | cons a as ih =>
    obtain ⟨⟨hoka, ha⟩, has⟩ := forall_mem_cons.1 has
    cases bs with
    | nil =>
      refine absurd (ends_close v) ?_
      rw [show ")".toList ++ v = _ from h.symm]
      exact hstart a as hoka _
    | cons b bs =>
      obtain ⟨hb, htl⟩ := forall_mem_cons.1 hbs
      simp only [map_cons] at h ih
      rcases as with _ | ⟨a', as⟩ <;> rcases bs with _ | ⟨b', bs⟩ <;>
        simp only [map_cons, map_nil, intercalate_singleton,
          intercalate_cons_cons, append_assoc] at h
      · obtain ⟨rfl, htail⟩ := ha b _ _ hb (ends_close u) (ends_close v) h
        exact ⟨rfl, append_cancel_left htail⟩
      · exact absurd (ha b _ _ hb (ends_close u) (hsep _) h).2.symm (hclose _ _)
      · exact absurd (ha b _ _ hb (hsep _) (ends_close v) h).2 (hclose _ _)
      · obtain ⟨rfl, htail⟩ := ha b _ _ hb (hsep _) (hsep _) h
        obtain ⟨heq, rfl⟩ := ih has htl (append_cancel_left htail)
        exact ⟨by rw [heq], rfl⟩

end

section

variable {α : Type} {text : α → List Char} {ok : α → Prop} {a b : α} {w u v : List Char}

lemma Distinctive.next (ha : Distinctive text ok a)
    (h : w ++ (text a ++ (", ".toList ++ u)) = w ++ (text b ++ (", ".toList ++ v))) (hb : ok b) :
    a = b ∧ ", ".toList ++ u = ", ".toList ++ v :=
  ha b _ _ hb (ends_comma u) (ends_comma v) (append_cancel_left h)

lemma Distinctive.last (ha : Distinctive text ok a)
    (h : w ++ (text a ++ (")".toList ++ u)) = w ++ (text b ++ (")".toList ++ v))) (hb : ok b) :
    a = b ∧ u = v :=
  (ha b _ _ hb (ends_close u) (ends_close v) (append_cancel_left h)).imp_right append_cancel_left

end

lemma distinctive_name (h : Undelimited n) : Distinctive String.toList Undelimited n :=
  fun _ _ _ hm => name_of_append h hm

/-! ### Nodes -/

lemma BinOp.text_inj : ∀ a ∈ defined, ∀ b ∈ defined, a.text = b.text → a = b := by decide

lemma BinOp.undelimited_text (a : BinOp) : Undelimited a.text := by
  cases a <;> simp [Undelimited, text, isDelimiter]

lemma UnOp.text_inj {a b : UnOp} (ha : a = .neg ∨ a = .not) (hb : b = .neg ∨ b = .not)
    (h : a.text = b.text) : a = b := by
  rcases ha with rfl | rfl <;> rcases hb with rfl | rfl <;> first | rfl | simp [text] at h

lemma UnOp.undelimited_text (a : UnOp) : Undelimited a.text := by
  cases a <;> simp [Undelimited, text, isDelimiter]

lemma not_delimiter_of_digit (c : Char) (h : c.isDigit) : isDelimiter c = false := by
  have h := Char.isDigit_iff_toNat.1 h
  simp only [isDelimiter, Bool.or_eq_false_iff, decide_eq_false_iff_not]
  refine ⟨⟨⟨?_, ?_⟩, ?_⟩, ?_⟩ <;> rintro rfl <;> revert h <;> decide

lemma not_bracket_of_digit (c : Char) (h : c.isDigit) : (c == ']') = false := by
  rw [beq_eq_false_iff_ne]
  rintro rfl
  cases h

lemma Expr.texts_eq (xs : List Expr) : Expr.texts xs = xs.map Expr.text := by
  induction xs with
  | nil => rfl
  | cons x xs ih => rw [Expr.texts, ih, map_cons]

lemma Stmt.texts_eq (ss : List Stmt) : Stmt.texts ss = ss.map Stmt.text := by
  induction ss with
  | nil => rfl
  | cons s ss ih => rw [Stmt.texts, ih, map_cons]

lemma Expr.not_ends (x : Expr) (u : List Char) : ¬Closed (x.text.toList ++ u) := by
  intro h
  cases x <;> simp [Expr.text, Closed, isDelimiter] at h

lemma Stmt.Legible.not_ends {s : Stmt} (hs : s.Legible) (u : List Char) :
    ¬Closed (s.text.toList ++ u) := by
  intro h
  cases s <;> first | exact hs | simp [Stmt.text, Closed, isDelimiter] at h

lemma Expr.legibleAll_iff : Expr.LegibleAll xs ↔ ∀ x ∈ xs, x.Legible := by
  induction xs with
  | nil => simp [Expr.LegibleAll]
  | cons x xs ih => simp [Expr.LegibleAll, ih]

lemma Stmt.legibleAll_iff : Stmt.LegibleAll ss ↔ ∀ s ∈ ss, s.Legible := by
  induction ss with
  | nil => simp [Stmt.LegibleAll]
  | cons s ss ih => simp [Stmt.LegibleAll, ih]

lemma Expr.list_of_append {xs ys : List Expr} (hxs : ∀ x ∈ xs, x.Legible ∧
      Distinctive (fun y => y.text.toList) Expr.Legible x) (hys : ∀ y ∈ ys, y.Legible)
    {u v : List Char} (h : (String.intercalate ", " (xs.map Expr.text)).toList ++
      (")".toList ++ u) =
      (String.intercalate ", " (ys.map Expr.text)).toList ++ (")".toList ++ v)) :
    xs = ys ∧ u = v := by
  rw [String.toList_intercalate, String.toList_intercalate, map_map, map_map] at h
  exact Structured.list_of_append ends_comma (by simp) (fun x _ => x.not_ends) hxs hys h

lemma Stmt.list_of_append {ss ts : List Stmt} (hss : ∀ s ∈ ss, s.Legible ∧
      Distinctive (fun t => t.text.toList) Stmt.Legible s) (hts : ∀ t ∈ ts, t.Legible)
    {u v : List Char} (h : (String.intercalate "; " (ss.map Stmt.text)).toList ++
      (")".toList ++ u) =
      (String.intercalate "; " (ts.map Stmt.text)).toList ++ (")".toList ++ v)) :
    ss = ts ∧ u = v := by
  rw [String.toList_intercalate, String.toList_intercalate, map_map, map_map] at h
  exact Structured.list_of_append ends_semicolon (by simp) (fun s hs => hs.not_ends) hss hts h

mutual

/-- The text of an expression tells it apart from every other. -/
lemma Expr.distinctive : (x : Expr) → x.Legible →
    Distinctive (fun y => y.text.toList) Expr.Legible x
  | .const a, _, y, u, v, _, hu, hv, h => by
    cases y with
    | const b =>
      simp only [Expr.text, Decimal.ofInt32, toList_append, append_assoc] at h
      obtain ⟨heq, rfl⟩ := number_of_append rfl rfl not_delimiter_of_digit hu hv
        (append_cancel_left h)
      exact ⟨by rw [Int32.toInt_inj.1 heq], rfl⟩
    | _ => simp [Expr.text] at h
  | .temp reg, hx, y, u, v, hy, hu, hv, h => by
    cases y with
    | temp reg' =>
      simp only [Expr.text, toList_append, append_assoc] at h
      obtain ⟨rfl, rfl⟩ := name_of_append hx hy hu hv (append_cancel_left h)
      exact ⟨rfl, rfl⟩
    | _ => simp [Expr.text] at h
  | .name label, hx, y, u, v, hy, hu, hv, h => by
    cases y with
    | name label' =>
      simp only [Expr.text, toList_append, append_assoc] at h
      obtain ⟨rfl, rfl⟩ := name_of_append hx hy hu hv (append_cancel_left h)
      exact ⟨rfl, rfl⟩
    | _ => simp [Expr.text] at h
  | .mem addr, hx, y, u, v, hy, _, _, h => by
    cases y with
    | mem addr' =>
      simp only [Expr.text, toList_append, append_assoc] at h
      obtain ⟨rfl, rfl⟩ := (Expr.distinctive addr hx).last h hy
      exact ⟨rfl, rfl⟩
    | _ => simp [Expr.text] at h
  | .binop op left right, hx, y, u, v, hy, _, _, h => by
    cases y with
    | binop op' left' right' =>
      simp only [Expr.text, toList_append, append_assoc] at h
      obtain ⟨heq, hargs⟩ := (distinctive_name op.undelimited_text).next h op'.undelimited_text
      obtain rfl := BinOp.text_inj op hx.1 op' hy.1 heq
      obtain ⟨rfl, harg⟩ := (Expr.distinctive left hx.2.1).next hargs hy.2.1
      obtain ⟨rfl, rfl⟩ := (Expr.distinctive right hx.2.2).last harg hy.2.2
      exact ⟨rfl, rfl⟩
    | _ => simp [Expr.text] at h
  | .unop op x, hx, y, u, v, hy, _, _, h => by
    cases y with
    | unop op' x' =>
      simp only [Expr.text, toList_append, append_assoc] at h
      obtain ⟨heq, hargs⟩ := (distinctive_name op.undelimited_text).next h op'.undelimited_text
      obtain rfl := UnOp.text_inj hx.1 hy.1 heq
      obtain ⟨rfl, rfl⟩ := (Expr.distinctive x hx.2).last hargs hy.2
      exact ⟨rfl, rfl⟩
    | _ => simp [Expr.text] at h
  | .call target args, hx, y, u, v, hy, _, _, h => by
    cases y with
    | call target' args' =>
      simp only [Expr.text, toList_append, append_assoc, Expr.texts_eq, ← map_cons] at h
      obtain ⟨heq, rfl⟩ := Expr.list_of_append (forall_mem_cons.2
          ⟨⟨hx.1, Expr.distinctive target hx.1⟩, Expr.distinctive_all args hx.2⟩)
        (forall_mem_cons.2 ⟨hy.1, Expr.legibleAll_iff.1 hy.2⟩) (append_cancel_left h)
      obtain ⟨rfl, rfl⟩ := List.cons.inj heq
      exact ⟨rfl, rfl⟩
    | _ => simp [Expr.text] at h
  | .eseq s x, hx, y, u, v, hy, _, _, h => by
    cases y with
    | eseq t y =>
      simp only [Expr.text, hx.1.hasGap, hy.1.hasGap, Bool.false_eq_true, if_false,
        toList_append, append_assoc] at h
      obtain ⟨rfl, hargs⟩ := (Stmt.distinctive s hx.1).next h hy.1
      obtain ⟨rfl, rfl⟩ := (Expr.distinctive x hx.2).last hargs hy.2
      exact ⟨rfl, rfl⟩
    | _ => simp [Expr.text] at h

lemma Expr.distinctive_all : (xs : List Expr) → Expr.LegibleAll xs →
    ∀ x ∈ xs, x.Legible ∧ Distinctive (fun y => y.text.toList) Expr.Legible x
  | [], _ => forall_mem_nil _
  | x :: xs, h => forall_mem_cons.2
    ⟨⟨h.1, Expr.distinctive x h.1⟩, Expr.distinctive_all xs h.2⟩

/-- The text of a statement tells it apart from every other. -/
lemma Stmt.distinctive : (s : Stmt) → s.Legible →
    Distinctive (fun t => t.text.toList) Stmt.Legible s
  | .seq ss, hs, t, u, v, ht, _, _, h => by
    cases t with
    | seq ts =>
      simp only [Stmt.text, toList_append, append_assoc, Stmt.texts_eq] at h
      obtain ⟨rfl, rfl⟩ := Stmt.list_of_append (Stmt.distinctive_all ss hs)
        (Stmt.legibleAll_iff.1 ht) (append_cancel_left h)
      exact ⟨rfl, rfl⟩
    | skip => exact ht.elim
    | _ => simp [Stmt.text] at h
  | .move target src, hs, t, u, v, ht, _, _, h => by
    cases t with
    | move target' src' =>
      simp only [Stmt.text, toList_append, append_assoc] at h
      obtain ⟨rfl, hargs⟩ := (Expr.distinctive target hs.1).next h ht.1
      obtain ⟨rfl, rfl⟩ := (Expr.distinctive src hs.2).last hargs ht.2
      exact ⟨rfl, rfl⟩
    | skip => exact ht.elim
    | _ => simp [Stmt.text] at h
  | .exp x, hs, t, u, v, ht, _, _, h => by
    cases t with
    | exp x' =>
      simp only [Stmt.text, toList_append, append_assoc] at h
      obtain ⟨rfl, rfl⟩ := (Expr.distinctive x hs).last h ht
      exact ⟨rfl, rfl⟩
    | skip => exact ht.elim
    | _ => simp [Stmt.text] at h
  | .jump target, hs, t, u, v, ht, _, _, h => by
    cases t with
    | jump target' =>
      simp only [Stmt.text, toList_append, append_assoc] at h
      obtain ⟨rfl, rfl⟩ := (Expr.distinctive target hs).last h ht
      exact ⟨rfl, rfl⟩
    | skip => exact ht.elim
    | _ => simp [Stmt.text] at h
  | .cjump cond yes no, hs, t, u, v, ht, _, _, h => by
    cases t with
    | cjump cond' yes' no' =>
      simp only [Stmt.text, toList_append, append_assoc] at h
      obtain ⟨rfl, hargs⟩ := (Expr.distinctive cond hs.1).next h ht.1
      obtain ⟨rfl, harg⟩ := (distinctive_name hs.2.1).next hargs ht.2.1
      obtain ⟨rfl, rfl⟩ := (distinctive_name hs.2.2).last harg ht.2.2
      exact ⟨rfl, rfl⟩
    | skip => exact ht.elim
    | _ => simp [Stmt.text] at h
  | .label name, hs, t, u, v, ht, hu, hv, h => by
    cases t with
    | label name' =>
      simp only [Stmt.text, toList_append, append_assoc] at h
      obtain ⟨rfl, rfl⟩ := name_of_append hs ht hu hv (append_cancel_left h)
      exact ⟨rfl, rfl⟩
    | skip => exact ht.elim
    | _ => simp [Stmt.text] at h
  | .ret values, hs, t, u, v, ht, _, _, h => by
    cases t with
    | ret values' =>
      simp only [Stmt.text, toList_append, append_assoc, Expr.texts_eq] at h
      obtain ⟨rfl, rfl⟩ := Expr.list_of_append (Expr.distinctive_all values hs)
        (Expr.legibleAll_iff.1 ht) (append_cancel_left h)
      exact ⟨rfl, rfl⟩
    | skip => exact ht.elim
    | _ => simp [Stmt.text] at h
  | .call returns target args, hs, t, u, v, ht, _, _, h => by
    cases t with
    | call returns' target' args' =>
      simp only [Stmt.text, toList_append, append_assoc, Expr.texts_eq, ← map_cons] at h
      obtain ⟨rfl, hargs⟩ := number_of_append (p := (· == ']')) rfl rfl not_bracket_of_digit
        (by simp) (by simp) (append_cancel_left h)
      obtain ⟨heq, rfl⟩ := Expr.list_of_append (forall_mem_cons.2
          ⟨⟨hs.1, Expr.distinctive target hs.1⟩, Expr.distinctive_all args hs.2⟩)
        (forall_mem_cons.2 ⟨ht.1, Expr.legibleAll_iff.1 ht.2⟩)
        (append_cancel_left hargs)
      obtain ⟨rfl, rfl⟩ := List.cons.inj heq
      exact ⟨rfl, rfl⟩
    | skip => exact ht.elim
    | _ => simp [Stmt.text] at h
  | .skip, hs, _, _, _, _, _, _, _ => hs.elim

lemma Stmt.distinctive_all : (ss : List Stmt) → Stmt.LegibleAll ss →
    ∀ s ∈ ss, s.Legible ∧ Distinctive (fun t => t.text.toList) Stmt.Legible s
  | [], _ => forall_mem_nil _
  | s :: ss, h => forall_mem_cons.2
    ⟨⟨h.1, Stmt.distinctive s h.1⟩, Stmt.distinctive_all ss h.2⟩

end

def Node.Legible : Node → Prop
  | .stmt s => s.Legible
  | .expr x => x.Legible

lemma Node.text_inj {n m : Node} (hn : n.Legible) (hm : m.Legible) (h : n.text = m.text) :
    n = m := by
  have hnil : Closed [] := fun c hc => by cases hc
  have hboth : ∀ {s : Stmt} {x : Expr}, s.Legible → s.text ≠ x.text := by
    intro s x hs heq
    replace heq := congrArg String.toList heq
    cases s <;> first | exact hs | cases x <;> simp [Stmt.text, Expr.text] at heq
  cases n with
  | stmt s =>
    rw [Node.text, hn.hasGap, if_neg Bool.false_ne_true] at h
    cases m with
    | stmt t =>
      rw [Node.text, hm.hasGap, if_neg Bool.false_ne_true] at h
      rw [(Stmt.distinctive s hn t [] [] hm hnil hnil (by simp only [h])).1]
    | expr y => exact absurd h (hboth hn)
  | expr x =>
    cases m with
    | stmt t =>
      rw [Node.text, Node.text, hm.hasGap, if_neg Bool.false_ne_true] at h
      exact absurd h.symm (hboth hm)
    | expr y =>
      rw [Node.text, Node.text] at h
      rw [(Expr.distinctive x hn y [] [] hm hnil hnil (by simp only [h])).1]

end TreeMachine.Structured

namespace TreeMachine.Linear

open Structured

lemma child_legible {n c : Node} (hn : n.Legible) (hc : c ∈ n.children) : c.Legible := by
  have hexprs : ∀ {xs : List Expr}, Expr.LegibleAll xs → c ∈ xs.map .expr → c.Legible := by
    intro xs hxs hc
    obtain ⟨x, hx, rfl⟩ := mem_map.1 hc
    exact Expr.legibleAll_iff.1 hxs x hx
  rcases n with s | x
  · cases s <;> simp only [Node.children, mem_cons, not_mem_nil, or_false] at hc
    case seq ss =>
      obtain ⟨s, hs, rfl⟩ := mem_map.1 hc
      exact Stmt.legibleAll_iff.1 hn s hs
    case move => rcases hc with rfl | rfl <;> [exact hn.1; exact hn.2]
    case exp => exact hc ▸ hn
    case jump => exact hc ▸ hn
    case cjump => exact hc ▸ hn.1
    case ret => exact hexprs hn hc
    case call => rcases hc with rfl | hc <;> [exact hn.1; exact hexprs hn.2 hc]
  · cases x <;> simp only [Node.children, mem_cons, not_mem_nil, or_false] at hc
    case mem => exact hc ▸ hn
    case binop => rcases hc with rfl | rfl <;> [exact hn.2.1; exact hn.2.2]
    case unop => exact hc ▸ hn.2
    case call => rcases hc with rfl | hc <;> [exact hn.1; exact hexprs hn.2 hc]
    case eseq => rcases hc with rfl | rfl <;> [exact hn.1; exact hn.2]

lemma legible_of_mem_nodes (n : Node) (hn : n.Legible) : ∀ m ∈ nodes (itemsOfNode n),
    m.Legible := by
  induction n using Node.induction with
  | h n ih =>
    have hparts : ∀ ns : List Node, (∀ c ∈ ns, ∀ m ∈ nodes (itemsOfNode c), m.Legible) →
        ∀ m ∈ nodes (ns.flatMap itemsOfNode), m.Legible := by
      intro ns hns
      induction ns with
      | nil => exact forall_mem_nil _
      | cons c ns ihns =>
        obtain ⟨hc, hns⟩ := forall_mem_cons.1 hns
        rw [flatMap_cons, nodes_append]
        exact forall_mem_append.2 ⟨hc, ihns hns⟩
    rw [itemsOfNode_eq, nodes_append]
    refine forall_mem_append.2 ⟨hparts _ fun c hc => ih c hc (child_legible hn hc), fun m hm => ?_⟩
    rcases ownItem_cases n with rfl | ⟨l, rfl⟩ | hown
    · cases hm
    · cases hm
    · rw [hown] at hm
      obtain rfl := mem_singleton.1 hm
      exact hn

namespace Program

lemma firstDifference_eq_none_iff (hlength : ns.length = ms.length) (addr : Nat) :
    firstDifference addr ns ms = none ↔ ns.map Node.text = ms.map Node.text := by
  induction ns generalizing ms addr with
  | nil => cases ms <;> simp_all [firstDifference]
  | cons n ns ih =>
    cases ms with
    | nil => cases hlength
    | cons m ms =>
      rw [firstDifference, map_cons, map_cons, List.cons.injEq]
      split_ifs with h
      · rw [ih (Nat.succ.inj hlength)]
        simp [h]
      · simp [h]

lemma same_eq_ok_iff {p q : Program} : p.same q = .ok () ↔
    p.labels.toList = q.labels.toList ∧ p.funcs = q.funcs ∧
      p.code.toList.map Node.text = q.code.toList.map Node.text := by
  unfold same
  split_ifs with hlabels hfuncs hsize
  · simp [hlabels]
  · simp [hfuncs]
  · constructor
    · rintro ⟨⟩
    · rintro ⟨-, -, h⟩
      exact absurd (by simpa using congrArg List.length h) hsize
  · rw [← firstDifference_eq_none_iff (by simpa using hsize) 0]
    cases firstDifference 0 p.code.toList q.code.toList <;> simp_all

lemma list_of_texts {ns ms : List Node} (hns : ∀ n ∈ ns, n.Legible) (hms : ∀ m ∈ ms, m.Legible)
    (h : ns.map Node.text = ms.map Node.text) : ns = ms := by
  induction ns generalizing ms with
  | nil => exact (map_eq_nil_iff.1 h.symm).symm
  | cons n ns ih =>
    cases ms with
    | nil => cases h
    | cons m ms =>
      obtain ⟨hn, hns⟩ := forall_mem_cons.1 hns
      obtain ⟨hm, hms⟩ := forall_mem_cons.1 hms
      obtain ⟨htext, htexts⟩ := List.cons.inj h
      rw [Node.text_inj hn hm htext, ih hns hms htexts]

/-- Comparing layouts decides whether they are equal. For units without gaps and undefined operators
whose names have no delimiters, the comparison succeeds just if both layouts bind the same
labels, have the same functions and hold the same node at every address; and of two such nodes,
no matter where they stand, the texts are equal just if the nodes are. -/
theorem same_iff_equal {u u' : CodeUnit} (hu : ∀ f ∈ u.functions, f.body.Legible)
    (hu' : ∀ f ∈ u'.functions, f.body.Legible) {p q : Program} (hp : ofUnit u = .ok p)
    (hq : ofUnit u' = .ok q) :
    (p.same q = .ok () ↔
      (∀ name : String, p.labels[name]? = q.labels[name]?) ∧ p.funcs = q.funcs ∧ p.code = q.code) ∧
    ∀ n m : Node, n.Legible → m.Legible → (n.text = m.text ↔ n = m) := by
  have hcode : ∀ {u : CodeUnit} {p : Program}, (∀ f ∈ u.functions, f.body.Legible) →
      ofUnit u = .ok p → ∀ n ∈ p.code.toList, n.Legible := by
    intro u p hu hp n hn
    rw [code_of_ofUnit hp] at hn
    obtain ⟨f, hf, hn⟩ := mem_flatMap.1 hn
    exact legible_of_mem_nodes (.stmt f.body) (hu f hf) n hn
  refine ⟨?_, fun n m hn hm => ⟨Node.text_inj hn hm, congrArg Node.text⟩⟩
  rw [same_eq_ok_iff]
  refine and_congr ⟨fun h name => ?_, fun h => ?_⟩
    (and_congr_right fun _ => ⟨fun h => ?_, fun h => ?_⟩)
  · exact (Std.TreeMap.equiv_iff_toList_eq.2 h).getElem?_eq
  · exact Std.TreeMap.equiv_iff_toList_eq.1 (.of_forall_constGet?_eq h)
  · exact Array.toList_inj.1 (list_of_texts (hcode hu hp) (hcode hu' hq) h)
  · rw [h]

/-- Gives a negative number and a register after a statement without parts. -/
def returning : CodeUnit where
  name := "returning"
  functions := [{ name := "main", body := .seq [.seq [], .ret [.const (-1), .temp "x"]] }]

theorem same_iff_equal_returning : ∃ p, ofUnit returning = .ok p ∧ p.same p = .ok () := by
  obtain ⟨p, hp⟩ := ofUnit_succeeds (u := returning) (by decide)
  have hlegible : ∀ f ∈ returning.functions, f.body.Legible := by
    simp [returning, Stmt.Legible, Stmt.LegibleAll, Expr.Legible, Expr.LegibleAll, Undelimited,
      isDelimiter]
  exact ⟨p, hp, (same_iff_equal hlegible hlegible hp hp).1.2 ⟨fun _ => rfl, rfl, rfl⟩⟩

end Program

end TreeMachine.Linear
