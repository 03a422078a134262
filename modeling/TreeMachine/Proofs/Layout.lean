import Mathlib
import TreeMachine.Linear.Basic

/-!
# Where linear code stands

Laying out a unit puts the items of every function body at consecutive addresses. `Placed`
says that items stand from an address on: every node at its own address, every label bound
to the address of what follows it. Everything later proofs know about addresses comes from
it and from the two facts about a whole unit below.
-/

open List

namespace TreeMachine.Linear

open Structured

variable {p : Program} {a : Nat}

/-! ### Items -/

/-- How many addresses items take; labels take none. -/
def extent : List Item → Nat
  | [] => 0
  | .mark _ :: is => extent is
  | .node _ :: is => extent is + 1

def marks : List Item → List String
  | [] => []
  | .mark l :: is => l :: marks is
  | .node _ :: is => marks is

def nodes : List Item → List Node
  | [] => []
  | .mark _ :: is => nodes is
  | .node n :: is => n :: nodes is

@[simp] lemma extent_append (xs ys : List Item) : extent (xs ++ ys) = extent xs + extent ys := by
  induction xs with
  | nil => simp [extent]
  | cons x xs ih =>
    cases x <;> simp [extent, ih]
    omega

@[simp] lemma marks_append (xs ys : List Item) : marks (xs ++ ys) = marks xs ++ marks ys := by
  induction xs with
  | nil => rfl
  | cons x xs ih => cases x <;> simp [marks, ih]

@[simp] lemma nodes_append (xs ys : List Item) : nodes (xs ++ ys) = nodes xs ++ nodes ys := by
  induction xs with
  | nil => rfl
  | cons x xs ih => cases x <;> simp [nodes, ih]

lemma itemsOfAll_append (ss ts : List Stmt) :
    itemsOfAll (ss ++ ts) = itemsOfAll ss ++ itemsOfAll ts := by
  induction ss with
  | nil => simp [itemsOfAll]
  | cons s ss ih => simp [itemsOfAll, ih]

/-! ### Standing at an address -/

/-- The items stand in the program from the address on. -/
def Placed (p : Program) : Nat → List Item → Prop
  | _, [] => True
  | a, .mark l :: is => p.labels[l]? = some a ∧ Placed p a is
  | a, .node n :: is => p.code[a]? = some n ∧ Placed p (a + 1) is

lemma placed_append : Placed p a (xs ++ ys) ↔ Placed p a xs ∧ Placed p (a + extent xs) ys := by
  induction xs generalizing a with
  | nil => simp [Placed, extent]
  | cons x xs ih =>
    cases x with
    | mark l => simp [Placed, extent, ih, and_assoc]
    | node n =>
      have hadd : a + 1 + extent xs = a + (extent xs + 1) := by omega
      simp [Placed, extent, ih, and_assoc, hadd]

lemma Placed.append (h : Placed p a (xs ++ ys)) : Placed p a xs ∧ Placed p (a + extent xs) ys :=
  placed_append.1 h

lemma Placed.node (h : Placed p a (.node n :: is)) : p.code[a]? = some n :=
  h.1

lemma Placed.isSome_of_mem_marks (h : Placed p a is) (hl : l ∈ marks is) :
    (p.labels[l]?).isSome := by
  induction is generalizing a with
  | nil => simp [marks] at hl
  | cons i is ih =>
    cases i with
    | mark m =>
      rcases mem_cons.1 hl with rfl | hl
      · simp [h.1]
      · exact ih h.2 hl
    | node n => exact ih h.2 hl

/-! ### Growing programs -/

namespace Program

variable {p q : Program} {is : List Item} {name : String} {f : Function} {r : Range}
  {fs : List Function} {u : CodeUnit}

/-- One program has all the code and labels of another. -/
structure Extends (q p : Program) : Prop where
  code : ∀ {a : Nat} {n : Node}, p.code[a]? = some n → q.code[a]? = some n
  labels : ∀ {l : String} {a : Nat}, p.labels[l]? = some a → q.labels[l]? = some a

lemma Extends.refl (p : Program) : Extends p p := ⟨id, id⟩

lemma Extends.trans {r : Program} (h : Extends r q) (g : Extends q p) : Extends r p :=
  ⟨fun hn => h.code (g.code hn), fun hl => h.labels (g.labels hl)⟩

lemma Extends.placed (h : Extends q p) (hp : Placed p a is) : Placed q a is := by
  induction is generalizing a with
  | nil => trivial
  | cons i is ih =>
    cases i with
    | mark l => exact ⟨h.labels hp.1, ih hp.2⟩
    | node n => exact ⟨h.code hp.1, ih hp.2⟩

lemma getElem?_labels_insert (m : Std.TreeMap String Nat) (k l : String) (a : Nat) :
    (m.insert k a)[l]? = if k = l then some a else m[l]? := by
  simp only [Std.TreeMap.getElem?_insert, Std.compare_eq_iff_eq]

lemma mem_labels_iff_isSome (m : Std.TreeMap String Nat) (l : String) :
    l ∈ m ↔ (m[l]?).isSome = true := by
  rw [Std.TreeMap.mem_iff_contains, Std.TreeMap.contains_eq_isSome_getElem?]

lemma define_of_not_mem (h : name ∉ p.labels) :
    p.define name = .ok { p with labels := p.labels.insert name p.code.size } := by
  have hc : p.labels.contains name = false :=
    Bool.eq_false_iff.2 fun hc => h (Std.TreeMap.mem_iff_contains.2 hc)
  simp [define, hc]

lemma not_mem_of_define (h : p.define name = .ok q) : name ∉ p.labels := by
  intro hm
  have hc : p.labels.contains name = true := Std.TreeMap.mem_iff_contains.1 hm
  simp [define, hc] at h

lemma define_eq_ok (h : p.define name = .ok q) :
    q = { p with labels := p.labels.insert name p.code.size } := by
  rw [define_of_not_mem (not_mem_of_define h)] at h
  exact (Except.ok.inj h).symm

lemma extends_define (h : name ∉ p.labels) (a : Nat) :
    Extends { p with labels := p.labels.insert name a } p := by
  refine ⟨id, fun {l b} hl => ?_⟩
  have hne : name ≠ l := by
    rintro rfl
    exact h ((mem_labels_iff_isSome _ _).2 (by simp [hl]))
  simpa [getElem?_labels_insert, hne] using hl

lemma extends_funcs (p : Program) (rs : List Range) : Extends { p with funcs := rs } p :=
  ⟨id, id⟩

lemma mem_labels_insert {m : Std.TreeMap String Nat} : l ∈ m.insert k a ↔ l = k ∨ l ∈ m := by
  rw [mem_labels_iff_isSome, mem_labels_iff_isSome, getElem?_labels_insert]
  by_cases h : k = l
  · simp [h]
  · simp [h, Ne.symm h]

/-! ### Laying out items -/

/-- What laying out items does to a program. -/
structure Added (p : Program) (is : List Item) (q : Program) : Prop where
  unit : q.unit = p.unit
  code : q.code.toList = p.code.toList ++ nodes is
  funcs : q.funcs = p.funcs
  grows : Extends q p
  placed : Placed q p.code.size is
  mem : ∀ l, l ∈ q.labels ↔ l ∈ p.labels ∨ l ∈ marks is
  nodup : (marks is).Nodup
  fresh : ∀ l ∈ marks is, l ∉ p.labels

lemma extent_eq_length (is : List Item) : extent is = (nodes is).length := by
  induction is with
  | nil => rfl
  | cons i is ih => cases i <;> simp [extent, nodes, ih]

lemma Added.size (h : Added p is q) : q.code.size = p.code.size + extent is := by
  have := congrArg List.length h.code
  simpa [extent_eq_length] using this

lemma added_of_foldlM (h : is.foldlM place p = .ok q) : Added p is q := by
  induction is generalizing p with
  | nil =>
    obtain rfl : p = q := Except.ok.inj h
    exact ⟨rfl, by simp [nodes], rfl, .refl p, trivial, by simp [marks], .nil, by simp [marks]⟩
  | cons i is ih =>
    rw [foldlM_cons] at h
    cases i with
    | mark l =>
      cases hd : p.place (.mark l) with
      | error e => rw [hd] at h; cases h
      | ok r =>
        rw [hd] at h
        have hl : l ∉ p.labels := not_mem_of_define hd
        obtain rfl := define_eq_ok hd
        have ht := ih h
        have hls : l ∉ marks is := fun hm => ht.fresh l hm (mem_labels_insert.2 (.inl rfl))
        refine ⟨ht.unit, ht.code, ht.funcs, ht.grows.trans (extends_define hl _), ⟨?_, ht.placed⟩,
          fun m => ?_, ?_, fun m hm => ?_⟩
        · exact ht.grows.labels (by simp)
        · rw [ht.mem, mem_labels_insert]
          simp only [marks, mem_cons]
          grind
        · exact nodup_cons.2 ⟨hls, ht.nodup⟩
        · rcases mem_cons.1 hm with rfl | hm
          · exact hl
          · exact fun hmem => ht.fresh m hm (mem_labels_insert.2 (.inr hmem))
    | node n =>
      have ht := ih (p := { p with code := p.code.push n }) h
      have hg : Extends { p with code := p.code.push n } p := by
        refine ⟨fun {a m} hm => ?_, id⟩
        have hlt : a < p.code.size := (Array.getElem?_eq_some_iff.1 hm).1
        simpa [Array.getElem?_push, ne_of_lt hlt] using hm
      refine ⟨ht.unit, ?_, ht.funcs, ht.grows.trans hg, ⟨?_, ?_⟩, ht.mem, ht.nodup, ht.fresh⟩
      · simpa [nodes] using ht.code
      · exact ht.grows.code (by simp)
      · simpa using ht.placed

lemma foldlM_place_succeeds (hn : (marks is).Nodup) (hf : ∀ l ∈ marks is, l ∉ p.labels) :
    ∃ q, is.foldlM place p = .ok q := by
  induction is generalizing p with
  | nil => exact ⟨p, rfl⟩
  | cons i is ih =>
    rw [foldlM_cons]
    cases i with
    | mark l =>
      rw [marks, nodup_cons] at hn
      have hl : l ∉ p.labels := hf l mem_cons_self
      rw [show p.place (.mark l) = _ from define_of_not_mem hl]
      refine ih hn.2 fun m hm hmem => ?_
      rcases mem_labels_insert.1 hmem with rfl | hmem
      · exact hn.1 hm
      · exact hf m (mem_cons_of_mem _ hm) hmem
    | node n => exact ih (p := { p with code := p.code.push n }) hn hf

/-! ### Laying out functions -/

/-- A function stands in a range of the program, under its name. -/
structure Holds (p : Program) (f : Structured.Function) (r : Range) : Prop where
  name : r.name = f.name
  label : p.labels[f.name]? = some r.start
  placed : Placed p r.start (itemsOf f.body)
  stop : r.stop = r.start + extent (itemsOf f.body)

lemma Holds.extend (h : Holds p f r) (hg : Extends q p) : Holds q f r :=
  ⟨h.name, hg.labels h.label, hg.placed h.placed, h.stop⟩

/-- Ranges cover the addresses from `a` up to `b`, each beginning where the one before it ends. -/
def Tiles : Nat → List Range → Nat → Prop
  | a, [], b => a = b
  | a, r :: rs, b => r.start = a ∧ a ≤ r.stop ∧ Tiles r.stop rs b

lemma Tiles.append (h : Tiles a rs b) (g : Tiles b ts c) : Tiles a (rs ++ ts) c := by
  induction rs generalizing a with
  | nil => exact (show a = b from h) ▸ g
  | cons r rs ih => exact ⟨h.1, h.2.1, ih h.2.2⟩

/-- The names a function defines: its own, and the labels of its body. -/
def namesOf (f : Structured.Function) : List String :=
  f.name :: marks (itemsOf f.body)

/-- What laying out functions does to a program. -/
structure Laid (p : Program) (fs : List Structured.Function) (q : Program) : Prop where
  code : q.code.toList = p.code.toList ++ fs.flatMap fun f => nodes (itemsOf f.body)
  grows : Extends q p
  ranges : ∃ rs, q.funcs = p.funcs ++ rs ∧ List.Forall₂ (Holds q) fs rs ∧
    Tiles p.code.size rs q.code.size
  mem : ∀ l, l ∈ q.labels ↔ l ∈ p.labels ∨ l ∈ fs.flatMap namesOf
  nodup : (fs.flatMap namesOf).Nodup
  fresh : ∀ l ∈ fs.flatMap namesOf, l ∉ p.labels

lemma laid_of_addFunction (h : p.addFunction f = .ok q) : Laid p [f] q := by
  cases hd : p.define f.name with
  | error e => simp [addFunction, hd, bind, Except.bind] at h
  | ok r =>
    have hl := not_mem_of_define hd
    obtain rfl := define_eq_ok hd
    cases hf : (itemsOf f.body).foldlM place
        { p with labels := p.labels.insert f.name p.code.size } with
    | error e => simp [addFunction, hd, hf, bind, Except.bind] at h
    | ok r =>
      have ha := added_of_foldlM hf
      simp only [addFunction, hd, hf, bind, Except.bind, pure, Except.pure, Except.ok.injEq] at h
      subst h
      have hmarks : f.name ∉ marks (itemsOf f.body) := fun hm =>
        ha.fresh _ hm (mem_labels_insert.2 (.inl rfl))
      refine ⟨by simpa using ha.code, ⟨ha.grows.trans (extends_define hl _)|>.code,
        ha.grows.trans (extends_define hl _)|>.labels⟩,
        ⟨[⟨f.name, p.code.size, r.code.size⟩], ?_, .cons ⟨rfl, ?_, ?_, ha.size⟩ .nil, ?_⟩,
        fun l => ?_, ?_, fun l hm => ?_⟩
      · simp [ha.funcs]
      · exact ha.grows.labels (by simp)
      · exact (extends_funcs r _).placed ha.placed
      · exact ⟨rfl, ha.size ▸ Nat.le_add_right _ _, rfl⟩
      · rw [show l ∈ r.labels ↔ _ from ha.mem l, mem_labels_insert]
        simp only [flatMap_cons, flatMap_nil, List.append_nil, namesOf, mem_cons]
        grind
      · simpa [namesOf] using ⟨hmarks, ha.nodup⟩
      · simp only [flatMap_cons, flatMap_nil, List.append_nil, namesOf, mem_cons] at hm
        rcases hm with rfl | hm
        · exact hl
        · exact fun hmem => ha.fresh l hm (mem_labels_insert.2 (.inr hmem))

lemma addFunction_succeeds (hn : (namesOf f).Nodup) (hf : ∀ l ∈ namesOf f, l ∉ p.labels) :
    ∃ q, p.addFunction f = .ok q := by
  rw [namesOf, nodup_cons] at hn
  have hd := define_of_not_mem (hf f.name mem_cons_self)
  obtain ⟨r, hr⟩ := foldlM_place_succeeds
    (p := { p with labels := p.labels.insert f.name p.code.size }) hn.2 fun l hm hmem => by
      rcases mem_labels_insert.1 hmem with rfl | hmem
      · exact hn.1 hm
      · exact hf l (mem_cons_of_mem _ hm) hmem
  exact ⟨_, by simp only [addFunction, hd, hr, bind, Except.bind, pure, Except.pure]; rfl⟩

lemma Laid.nil (p : Program) : Laid p [] p :=
  ⟨by simp, .refl p, ⟨[], by simp, .nil, rfl⟩, by simp, .nil, by simp⟩

lemma Laid.append {r gs} (h : Laid p fs q) (g : Laid q gs r) : Laid p (fs ++ gs) r := by
  obtain ⟨rs, hrs, hfs, hrt⟩ := h.ranges
  obtain ⟨ts, hts, hgs, htt⟩ := g.ranges
  refine ⟨?_, g.grows.trans h.grows, ⟨rs ++ ts, ?_, ?_, hrt.append htt⟩, fun l => ?_, ?_,
    fun l hl => ?_⟩
  · rw [g.code, h.code, flatMap_append, append_assoc]
  · rw [hts, hrs, append_assoc]
  · exact rel_append (hfs.imp fun _ _ hh => hh.extend g.grows) hgs
  · rw [g.mem, h.mem, flatMap_append, mem_append, or_assoc]
  · rw [flatMap_append, nodup_append]
    refine ⟨h.nodup, g.nodup, fun a ha b hb hab => ?_⟩
    exact g.fresh b hb ((h.mem b).2 (.inr (hab ▸ ha)))
  · rw [flatMap_append, mem_append] at hl
    rcases hl with hl | hl
    · exact h.fresh l hl
    · exact fun hmem => g.fresh l hl ((h.mem l).2 (.inl hmem))

/-- Laying out one function of a unit, with its name in front of errors. -/
def addNamed (p : Program) (f : Structured.Function) : Except Error Program :=
  Error.wrap s!"function {f.name}" <| (p.addFunction f).mapError fun cause => .fault cause {}

lemma addNamed_eq_ok_iff : p.addNamed f = .ok q ↔ p.addFunction f = .ok q := by
  unfold addNamed
  cases p.addFunction f <;> simp [Except.mapError, Error.wrap]

lemma laid_of_foldlM (h : fs.foldlM addNamed p = .ok q) : Laid p fs q := by
  induction fs generalizing p with
  | nil =>
    obtain rfl : p = q := Except.ok.inj h
    exact .nil p
  | cons f fs ih =>
    rw [foldlM_cons] at h
    cases hf : p.addNamed f with
    | error e => rw [hf] at h; cases h
    | ok r =>
      rw [hf] at h
      exact (laid_of_addFunction (addNamed_eq_ok_iff.1 hf)).append (ih h)

lemma foldlM_addNamed_succeeds (hn : (fs.flatMap namesOf).Nodup)
    (hf : ∀ l ∈ fs.flatMap namesOf, l ∉ p.labels) :
    ∃ q, fs.foldlM addNamed p = .ok q := by
  induction fs generalizing p with
  | nil => exact ⟨p, rfl⟩
  | cons f fs ih =>
    rw [flatMap_cons, nodup_append] at hn
    obtain ⟨r, hr⟩ := addFunction_succeeds (p := p) hn.1 fun l hl =>
      hf l (by rw [flatMap_cons]; exact mem_append_left _ hl)
    rw [foldlM_cons, addNamed_eq_ok_iff.2 hr]
    refine ih hn.2.1 fun l hl hmem => ?_
    rcases ((laid_of_addFunction hr).mem l).1 hmem with hmem | hmem
    · exact hf l (by rw [flatMap_cons]; exact mem_append_right _ hl) hmem
    · exact hn.2.2 l (by simpa using hmem) l hl rfl

/-! ### Laying out a unit -/

def unitNames (u : Structured.CodeUnit) : List String :=
  u.functions.flatMap namesOf

lemma ofUnit_eq (u : CodeUnit) : ofUnit u = u.functions.foldlM addNamed { unit := u.name } := rfl

lemma laid_of_ofUnit (h : ofUnit u = .ok p) : Laid { unit := u.name } u.functions p :=
  laid_of_foldlM (ofUnit_eq u ▸ h)

/-- A unit whose function names and labels are all different can be laid out. -/
lemma ofUnit_succeeds (h : (unitNames u).Nodup) : ∃ p, ofUnit u = .ok p :=
  foldlM_addNamed_succeeds h fun _ _ hm => by simp at hm

lemma nodup_of_ofUnit (h : ofUnit u = .ok p) : (unitNames u).Nodup :=
  (laid_of_ofUnit h).nodup

lemma mem_labels_iff (h : ofUnit u = .ok p) (l : String) : l ∈ p.labels ↔ l ∈ unitNames u := by
  rw [(laid_of_ofUnit h).mem l]
  simp [unitNames]

lemma code_of_ofUnit (h : ofUnit u = .ok p) :
    p.code.toList = u.functions.flatMap fun f => nodes (itemsOf f.body) := by
  simpa using (laid_of_ofUnit h).code

lemma find?_name_of_nodup {rs : List Range} (hr : r ∈ rs) (hn : (rs.map Range.name).Nodup) :
    rs.find? (·.name == r.name) = some r := by
  induction rs with
  | nil => simp at hr
  | cons t rs ih =>
    rw [map_cons, nodup_cons] at hn
    rcases mem_cons.1 hr with rfl | hr
    · simp
    · have hne : t.name ≠ r.name := fun he => hn.1 (he ▸ mem_map_of_mem hr)
      simp [hne, ih hr hn.2]

lemma nodup_names (h : (unitNames u).Nodup) : (u.functions.map (·.name)).Nodup := by
  refine List.Nodup.sublist ?_ h
  unfold unitNames
  induction u.functions with
  | nil => simp
  | cons f fs ih =>
    rw [map_cons, flatMap_cons, namesOf, cons_append]
    exact (List.Sublist.trans ih (sublist_append_right _ _)).cons_cons _

lemma ranges_of_ofUnit (h : ofUnit u = .ok p) :
    List.Forall₂ (Holds p) u.functions p.funcs ∧ Tiles 0 p.funcs p.code.size := by
  obtain ⟨rs, hrs, hholds, htiles⟩ := (laid_of_ofUnit h).ranges
  obtain rfl : p.funcs = rs := hrs
  exact ⟨hholds, htiles⟩

lemma exists_of_forall₂ {α β : Type} {R : α → β → Prop} {xs : List α} {ys : List β} {x : α}
    (h : List.Forall₂ R xs ys) (hx : x ∈ xs) : ∃ y ∈ ys, R x y := by
  induction h with
  | nil => cases hx
  | cons hR _ ih =>
    rcases mem_cons.1 hx with rfl | hx
    · exact ⟨_, mem_cons_self, hR⟩
    · obtain ⟨y, hy, hxy⟩ := ih hx
      exact ⟨y, mem_cons_of_mem _ hy, hxy⟩

/-- Every function of a unit that was laid out stands in the range that goes by its name. -/
lemma holds_of_ofUnit (h : ofUnit u = .ok p) (hf : f ∈ u.functions) :
    ∃ r, p.entry f.name = some r ∧ Holds p f r := by
  obtain ⟨hholds, -⟩ := ranges_of_ofUnit h
  obtain ⟨r, hr, hh⟩ := exists_of_forall₂ hholds hf
  have hnames : u.functions.map (·.name) = p.funcs.map Range.name := by
    rw [← forall₂_eq_eq_eq, forall₂_map_left_iff, forall₂_map_right_iff]
    exact hholds.imp fun _ _ hh => hh.name.symm
  refine ⟨r, ?_, hh⟩
  rw [entry, ← hh.name]
  exact find?_name_of_nodup hr (hnames ▸ nodup_names (nodup_of_ofUnit h))

/-! ### The function at an address -/

lemma bisect_bounds (test : Nat → Bool) (h : lo ≤ hi) :
    lo ≤ bisect test lo hi ∧ bisect test lo hi ≤ hi := by
  fun_induction bisect test lo hi with
  | case1 lo hi hlt ht ih =>
    have := ih (by omega)
    omega
  | case2 lo hi hlt hf ih =>
    have := ih (by omega)
    omega
  | case3 lo hi hlt => omega

lemma test_bisect (h : lo ≤ hi) (hlt : bisect test lo hi < hi) :
    test (bisect test lo hi) = true := by
  fun_induction bisect test lo hi with
  | case1 lo hi hmid ht ih =>
    have hb := bisect_bounds test (show lo ≤ (lo + hi) / 2 by omega)
    rcases Nat.lt_or_eq_of_le hb.2 with hlt' | heq
    · exact ih (by omega) hlt'
    · rw [heq]
      exact ht
  | case2 lo hi hmid hf ih => exact ih (by omega) hlt
  | case3 lo hi hmid => omega

lemma contains_of_functionAt (h : p.functionAt addr = some r) :
    r ∈ p.funcs ∧ (r.start : Int) ≤ addr ∧ addr < r.stop := by
  unfold functionAt at h
  split at h
  next r' hr' =>
    have hlt := (List.getElem?_eq_some_iff.1 hr').1
    have ht := test_bisect (Nat.zero_le _) hlt
    rw [stopsAfter, hr', Option.any_some, decide_eq_true_eq] at ht
    split at h
    next hle =>
      obtain rfl := Option.some.inj h
      exact ⟨List.mem_of_getElem? hr', hle, ht⟩
    next => cases h
  next => cases h

end Program

end TreeMachine.Linear
