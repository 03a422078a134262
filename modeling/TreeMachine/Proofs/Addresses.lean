import TreeMachine.Proofs.Subtrees
import TreeMachine.Structured.Walk

/-!
# The map of addresses

Where a unit stands once it is laid out, as its trees say it. The code of a tree takes the
addresses of its parts, in their order, and then one more for its root; labels and empty
statements take none. The functions follow each other without gaps, so an address belongs to one
of them at most, and halving finds it even where functions are empty.
-/

open List

namespace TreeMachine.Structured

def Node.label? : Node → Option String
  | .stmt (.label l) => some l
  | _ => none

def Function.labels (f : Function) : List String :=
  (f.body.walk fun _ => true).filterMap Node.label?

/-- The names that a unit defines: those of its functions, and the labels in them. -/
def CodeUnit.names (u : CodeUnit) : List String :=
  u.functions.flatMap fun f => f.name :: f.labels

end TreeMachine.Structured

namespace TreeMachine.Linear

open Structured

/-! ### Labels -/

mutual

lemma marks_itemsOf_eq_walk : (s : Stmt) →
    marks (itemsOf s) = (s.walk fun _ => true).filterMap Node.label?
  | .skip | .label _ => rfl
  | .seq ss => by
    simp [itemsOf, Stmt.walk, marks, Node.label?, filterMap_cons, marks_itemsOfAll_eq_walk ss]
  | .move x y => by
    simp [itemsOf, Stmt.walk, marks, Node.label?, filterMap_cons,
      marks_itemsOfExpr_eq_walk x, marks_itemsOfExpr_eq_walk y]
  | .exp x | .jump x | .cjump x _ _ => by
    simp [itemsOf, Stmt.walk, marks, Node.label?, filterMap_cons, marks_itemsOfExpr_eq_walk x]
  | .ret xs => by
    simp [itemsOf, Stmt.walk, marks, Node.label?, filterMap_cons, marks_itemsOfExprs_eq_walk xs]
  | .call _ x xs => by
    simp [itemsOf, Stmt.walk, marks, Node.label?, filterMap_cons,
      marks_itemsOfExpr_eq_walk x, marks_itemsOfExprs_eq_walk xs]

lemma marks_itemsOfExpr_eq_walk : (x : Expr) →
    marks (itemsOfExpr x) = (x.walk fun _ => true).filterMap Node.label?
  | .const _ | .temp _ | .name _ => rfl
  | .mem x | .unop _ x => by
    simp [itemsOfExpr, Expr.walk, marks, Node.label?, filterMap_cons, marks_itemsOfExpr_eq_walk x]
  | .binop _ x y => by
    simp [itemsOfExpr, Expr.walk, marks, Node.label?, filterMap_cons,
      marks_itemsOfExpr_eq_walk x, marks_itemsOfExpr_eq_walk y]
  | .call x xs => by
    simp [itemsOfExpr, Expr.walk, marks, Node.label?, filterMap_cons,
      marks_itemsOfExpr_eq_walk x, marks_itemsOfExprs_eq_walk xs]
  | .eseq s x => by
    simp [itemsOfExpr, Expr.walk, marks, Node.label?, filterMap_cons,
      marks_itemsOf_eq_walk s, marks_itemsOfExpr_eq_walk x]

lemma marks_itemsOfAll_eq_walk : (ss : List Stmt) →
    marks (itemsOfAll ss) = (Stmt.walkAll (fun _ => true) ss).filterMap Node.label?
  | [] => rfl
  | s :: ss => by
    simp [itemsOfAll, Stmt.walkAll, marks_itemsOf_eq_walk s, marks_itemsOfAll_eq_walk ss]

lemma marks_itemsOfExprs_eq_walk : (xs : List Expr) →
    marks (itemsOfExprs xs) = (Expr.walkAll (fun _ => true) xs).filterMap Node.label?
  | [] => rfl
  | x :: xs => by
    simp [itemsOfExprs, Expr.walkAll, marks_itemsOfExpr_eq_walk x, marks_itemsOfExprs_eq_walk xs]

end

lemma unitNames_eq_names (u : CodeUnit) : Program.unitNames u = u.names := by
  unfold Program.unitNames CodeUnit.names
  congr 1
  funext f
  rw [Program.namesOf, marks_itemsOf_eq_walk, Function.labels]

lemma Placed.label_mem (h : Placed p a is) (hl : l ∈ marks is) :
    ∃ b, p.labels[l]? = some b ∧ a ≤ b ∧ b ≤ a + extent is := by
  induction is generalizing a with
  | nil => cases hl
  | cons i is ih =>
    cases i with
    | mark m =>
      rcases mem_cons.1 hl with rfl | hl
      · exact ⟨a, h.1, le_rfl, Nat.le_add_right _ _⟩
      · exact ih h.2 hl
    | node n =>
      obtain ⟨b, hb, hle, hge⟩ := ih h.2 hl
      exact ⟨b, hb, by omega, by rw [extent]; omega⟩

/-! ### Trees -/

mutual

/-- The code of a tree occupies the addresses from one up to another: those of its parts in
order, and last that of its root. Empty statements and labels occupy none, and labels are bound to
where they stand. -/
inductive Occupies (p : Program) : Node → Nat → Nat → Prop where
  | skip {a} : Occupies p (.stmt .skip) a a
  | label {l a} : p.labels[l]? = some a → Occupies p (.stmt (.label l)) a a
  | node {n a b} : n ≠ .stmt .skip → (∀ l, n ≠ .stmt (.label l)) → OccupyAll p n.children a b →
    p.code[b]? = some n → Occupies p n a (b + 1)

/-- The code of trees occupies intervals that follow each other. -/
inductive OccupyAll (p : Program) : List Node → Nat → Nat → Prop where
  | nil {a} : OccupyAll p [] a a
  | cons {n ns a b c} : Occupies p n a b → OccupyAll p ns b c → OccupyAll p (n :: ns) a c

end

section

variable {p : Program}

lemma occupyAll_of_placed
    (h : ∀ n ∈ ns, ∀ {a}, Placed p a (itemsOfNode n) → Occupies p n a (a + extent (itemsOfNode n)))
    (hp : Placed p a (ns.flatMap itemsOfNode)) :
    OccupyAll p ns a (a + extent (ns.flatMap itemsOfNode)) := by
  induction ns generalizing a with
  | nil => exact .nil
  | cons n ns ih =>
    obtain ⟨hn, hns⟩ := forall_mem_cons.1 h
    rw [flatMap_cons] at hp ⊢
    rw [extent_append, ← add_assoc]
    exact .cons (hn hp.append.1) (ih hns hp.append.2)

/-- The code of a tree that is laid out occupies an interval. -/
lemma occupies_of_placed (n : Node) (h : Placed p a (itemsOfNode n)) :
    Occupies p n a (a + extent (itemsOfNode n)) := by
  induction n using Node.induction generalizing a with
  | h n ih =>
    rw [itemsOfNode_eq] at h ⊢
    obtain ⟨hparts, hown⟩ := h.append
    rcases ownItem_cases n with rfl | ⟨l, rfl⟩ | hnode
    · exact .skip
    · exact .label hown.1
    · rw [hnode] at hown ⊢
      rw [extent_append, ← add_assoc]
      refine .node ?_ (fun l => ?_) (occupyAll_of_placed ih hparts) hown.1
      · rintro rfl
        cases hnode
      · rintro rfl
        cases hnode

end

/-! ### Functions -/

namespace Program

variable {p : Program} {r : Range}

lemma Tiles.start_le (h : Tiles a rs b) : ∀ r ∈ rs, a ≤ r.start := by
  induction rs generalizing a with
  | nil => nofun
  | cons r rs ih =>
    obtain ⟨rfl, hle, hrs⟩ := h
    exact forall_mem_cons.2 ⟨le_rfl, fun t ht => le_trans hle (ih hrs t ht)⟩

lemma Tiles.ordered (h : Tiles a rs b) : ∀ r ∈ rs, r.start ≤ r.stop := by
  induction rs generalizing a with
  | nil => nofun
  | cons r rs ih => exact forall_mem_cons.2 ⟨h.1 ▸ h.2.1, ih h.2.2⟩

lemma Tiles.pairwise (h : Tiles a rs b) : rs.Pairwise fun r t => r.stop ≤ t.start := by
  induction rs generalizing a with
  | nil => exact .nil
  | cons r rs ih => exact .cons (Tiles.start_le h.2.2) (ih h.2.2)

lemma bisect_le (hlo : lo ≤ i) (hhi : i < hi) (h : ∀ j, i ≤ j → j < hi → test j = true) :
    bisect test lo hi ≤ i := by
  fun_induction bisect test lo hi with
  | case1 lo hi hlt ht ih =>
    rcases Nat.lt_or_ge i ((lo + hi) / 2) with hi' | hi'
    · exact ih hlo hi' fun j hij hj => h j hij (by omega)
    · exact le_trans (bisect_bounds test (by omega)).2 hi'
  | case2 lo hi hlt ht ih =>
    -- the test fails in the middle, so it is only from later on that it holds
    have hmid : (lo + hi) / 2 < i := Nat.lt_of_not_le fun hle => ht (h _ hle (by omega))
    exact ih hmid hhi h
  | case3 lo hi hlt => omega

/-- Looking an address up finds the function that contains it. -/
lemma functionAt_eq_some_iff (ht : Tiles 0 p.funcs p.code.size) :
    p.functionAt addr = some r ↔ r ∈ p.funcs ∧ (r.start : Int) ≤ addr ∧ addr < r.stop := by
  refine ⟨contains_of_functionAt, ?_⟩
  rintro ⟨hr, hle, hlt⟩
  obtain ⟨i, hi, rfl⟩ := List.getElem_of_mem hr
  have hpair := List.pairwise_iff_getElem.1 ht.pairwise
  -- functions behind this one stop after the address as well
  have hafter : ∀ j, i ≤ j → j < p.funcs.length → p.stopsAfter addr j = true := by
    intro j hij hj
    rw [stopsAfter, List.getElem?_eq_getElem hj, Option.any_some, decide_eq_true_eq]
    rcases Nat.eq_or_lt_of_le hij with rfl | hij
    · exact hlt
    · have := hpair i j hi hj hij
      have := ht.ordered _ (List.getElem_mem hj)
      omega
  have hfound := bisect_le (Nat.zero_le i) hi hafter
  have hstops := test_bisect (Nat.zero_le _) (Nat.lt_of_le_of_lt hfound hi)
  -- and those before it do not
  obtain heq | hbefore := Nat.eq_or_lt_of_le hfound
  · simp only [functionAt, heq, List.getElem?_eq_getElem hi, if_pos hle]
  · have hk := Nat.lt_trans hbefore hi
    rw [stopsAfter, List.getElem?_eq_getElem hk, Option.any_some, decide_eq_true_eq] at hstops
    have := hpair _ i hk hi hbefore
    omega

end Program

/-! ### Units -/

/-- A function stands in a range: its name is bound to the beginning, its code occupies the
addresses, and its labels are bound to addresses of the range or its end. -/
structure Stands (p : Program) (f : Function) (r : Range) : Prop where
  name : r.name = f.name
  entry : p.labels[f.name]? = some r.start
  body : Occupies p (.stmt f.body) r.start r.stop
  labels : ∀ l ∈ f.labels, ∃ a, p.labels[l]? = some a ∧ r.start ≤ a ∧ a ≤ r.stop

/-- What the addresses of a unit are: the functions stand in ranges, one after the other, that
cover all addresses; the names that are bound are those of the unit; and looking an address up
finds the function that contains it, and nothing if there is none. -/
structure Mapped (u : CodeUnit) (p : Program) : Prop where
  functions : List.Forall₂ (Stands p) u.functions p.funcs
  tiles : Program.Tiles 0 p.funcs p.code.size
  names : ∀ l, l ∈ p.labels ↔ l ∈ u.names
  lookup : ∀ (addr : Int) r,
    p.functionAt addr = some r ↔ r ∈ p.funcs ∧ (r.start : Int) ≤ addr ∧ addr < r.stop

lemma Program.Holds.stands {p f r} (h : Program.Holds p f r) : Stands p f r where
  name := h.name
  entry := h.label
  body := h.stop ▸ occupies_of_placed (.stmt f.body) h.placed
  labels l hl := by
    rw [Function.labels, ← marks_itemsOf_eq_walk] at hl
    exact h.stop ▸ h.placed.label_mem hl

lemma mapped_of_ofUnit {u : CodeUnit} {p : Program} (h : Program.ofUnit u = .ok p) :
    Mapped u p where
  functions := (Program.ranges_of_ofUnit h).1.imp fun _ _ hh => hh.stands
  tiles := (Program.ranges_of_ofUnit h).2
  names l := by rw [Program.mem_labels_iff h, unitNames_eq_names]
  lookup _ _ := Program.functionAt_eq_some_iff (Program.ranges_of_ofUnit h).2

/-! ### Names that are defined twice -/

namespace Program

variable {p q : Program} {names rest : List String} {l : String} {c : Fault}

/-- A name among these is bound already, or there twice. -/
def Repeats (p : Program) (names : List String) (l : String) : Prop :=
  l ∈ p.labels ∧ l ∈ names ∨ 2 ≤ names.count l

lemma Repeats.append (h : Repeats p names l) : Repeats p (names ++ rest) l := by
  rcases h with ⟨hp, hl⟩ | h
  · exact .inl ⟨hp, mem_append_left _ hl⟩
  · exact .inr (by rw [count_append]; omega)

lemma Repeats.after (h : Repeats q rest l) (hq : ∀ l, l ∈ q.labels → l ∈ p.labels ∨ l ∈ names) :
    Repeats p (names ++ rest) l := by
  rcases h with ⟨hl, hr⟩ | h
  · rcases hq l hl with hp | hn
    · exact .inl ⟨hp, mem_append_right _ hr⟩
    · have := count_pos_iff.2 hn
      have := count_pos_iff.2 hr
      exact .inr (by rw [count_append]; omega)
  · exact .inr (by rw [count_append]; omega)

lemma Repeats.bound (h : Repeats { p with labels := p.labels.insert name a } rest l) :
    Repeats p (name :: rest) l := by
  rw [← singleton_append]
  exact h.after fun l hl => (mem_labels_insert.1 hl).symm.imp_right mem_singleton.2

lemma repeats_of_define (h : p.define name = .error c) :
    c = .duplicateLabel name ∧ name ∈ p.labels := by
  unfold define at h
  split at h
  next hc => exact ⟨(Except.error.inj h).symm, Std.TreeMap.mem_iff_contains.2 hc⟩
  next => cases h

lemma repeats_of_foldlM (h : is.foldlM place p = .error c) :
    ∃ l, c = .duplicateLabel l ∧ Repeats p (marks is) l := by
  induction is generalizing p with
  | nil => cases h
  | cons i is ih =>
    rw [foldlM_cons] at h
    cases i with
    | mark m =>
      cases hd : p.place (.mark m) with
      | error e =>
        rw [hd] at h
        cases h
        obtain ⟨rfl, hm⟩ := repeats_of_define hd
        exact ⟨m, rfl, .inl ⟨hm, mem_cons_self⟩⟩
      | ok q =>
        rw [hd] at h
        obtain ⟨l, hl, hrep⟩ := ih h
        obtain rfl := define_eq_ok hd
        exact ⟨l, hl, hrep.bound⟩
    | node n => exact ih (p := { p with code := p.code.push n }) h

lemma repeats_of_addFunction (h : p.addFunction f = .error c) :
    ∃ l, c = .duplicateLabel l ∧ Repeats p (namesOf f) l := by
  unfold addFunction at h
  cases hd : p.define f.name with
  | error e =>
    rw [hd] at h
    cases h
    obtain ⟨rfl, hm⟩ := repeats_of_define hd
    exact ⟨f.name, rfl, .inl ⟨hm, mem_cons_self⟩⟩
  | ok q =>
    obtain rfl := define_eq_ok hd
    cases hb : (itemsOf f.body).foldlM place
        { p with labels := p.labels.insert f.name p.code.size } with
    | error e =>
      simp only [hd, hb, bind, Except.bind, Except.error.injEq] at h
      obtain ⟨l, rfl, hrep⟩ := repeats_of_foldlM hb
      exact ⟨l, h.symm, hrep.bound⟩
    | ok r => simp [hd, hb, bind, Except.bind, pure, Except.pure] at h

lemma repeats_of_functions {fs : List Function} {e : Error} (h : fs.foldlM addNamed p = .error e) :
    ∃ l, e.fault? = some (.duplicateLabel l) ∧ Repeats p (fs.flatMap namesOf) l := by
  induction fs generalizing p with
  | nil => cases h
  | cons f fs ih =>
    rw [foldlM_cons] at h
    cases hf : p.addFunction f with
    | error c =>
      obtain ⟨l, rfl, hrep⟩ := repeats_of_addFunction hf
      rw [addNamed, hf] at h
      cases h
      exact ⟨l, rfl, hrep.append⟩
    | ok q =>
      rw [addNamed_eq_ok_iff.2 hf] at h
      obtain ⟨l, hl, hrep⟩ := ih h
      refine ⟨l, hl, hrep.after fun l hl => ?_⟩
      simpa using ((laid_of_addFunction hf).mem l).1 hl

end Program

/-- A unit has addresses exactly if its functions and labels all have different names. Then
the code of every tree occupies an interval that its root ends, the functions stand side by side
and fill the addresses, and every address is looked up exactly. Otherwise laying the unit out
fails, and the error gives a name that is there twice. -/
theorem addresses_of_unit (u : CodeUnit) :
    (u.names.Nodup ∧ ∃ p, Program.ofUnit u = .ok p ∧ Mapped u p) ∨
      ∃ l e, 2 ≤ u.names.count l ∧ Program.ofUnit u = .error e ∧
        e.fault? = some (.duplicateLabel l) ∧ e.code = "DUPLICATE_LABEL" := by
  cases h : Program.ofUnit u with
  | ok p =>
    refine .inl ⟨?_, p, rfl, mapped_of_ofUnit h⟩
    rw [← unitNames_eq_names]
    exact Program.nodup_of_ofUnit h
  | error e =>
    rw [Program.ofUnit_eq] at h
    obtain ⟨l, hl, hrep⟩ := Program.repeats_of_functions h
    refine .inr ⟨l, e, ?_, rfl, hl, by rw [Error.code, hl]; rfl⟩
    rw [← unitNames_eq_names]
    exact hrep.resolve_left fun hb => by simp at hb

end TreeMachine.Linear
