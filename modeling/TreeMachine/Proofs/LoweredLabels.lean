import TreeMachine.Proofs.Assembled
import TreeMachine.Proofs.Linking

/-!
# Labels of lowered code

Nothing is assumed of the structured code here except that it can be lowered. Labels may stand in
statements inside of expressions, at any depth. Lowering moves these statements in front of the
expression, with their order kept, and saves values between them, which brings no labels. It leaves
out names whose value is not used, and brings no new ones.

How a unit is laid out depends on its names alone: whether it can be, which name is the first to
occur twice, and what the labels are. So the two forms of a unit are laid out alike.
-/

open List

namespace TreeMachine.Flat

open Linear

/-! ### Labels and names -/

section

variable {p : Program} {taken : Taken}

/-- Every name that the nodes of items use is defined. -/
def AllBound (p : Program) (is : List Item) : Prop :=
  ∀ n ∈ nodes is, Bound p n

@[simp] lemma allBound_nil : AllBound p [] :=
  fun _ hn => by cases hn

@[simp] lemma allBound_append {is js : List Item} :
    AllBound p (is ++ js) ↔ AllBound p is ∧ AllBound p js := by
  unfold AllBound
  rw [nodes_append]
  exact forall_mem_append

@[simp] lemma allBound_node {n : Structured.Node} {is : List Item} :
    AllBound p (.node n :: is) ↔ Bound p n ∧ AllBound p is :=
  forall_mem_cons

@[simp] lemma bound_expr {x : Structured.Expr} (h : ∀ l, x ≠ .name l) : Bound p (.expr x) := by
  cases x with
  | name l => exact absurd rfl (h l)
  | _ => rfl

@[simp] lemma bound_stmt {s : Structured.Stmt} (h : ∀ x yes no, s ≠ .cjump x yes no) :
    Bound p (.stmt s) := by
  cases s with
  | cjump x yes no => exact absurd rfl (h x yes no)
  | _ => rfl

/-- The names that flat values use are defined. -/
def ValuesBound (p : Program) (xs : List Expr) : Prop :=
  ∀ x ∈ xs, AllBound p (itemsOfExpr x.lift)

lemma allBound_values : AllBound p (itemsOfExprs (xs.map Expr.lift)) ↔ ValuesBound p xs := by
  unfold ValuesBound
  induction xs with
  | nil => simp [itemsOfExprs]
  | cons x xs ih => simp [itemsOfExprs, ih]

def CodeBound (p : Program) (code : List Stmt) : Prop :=
  AllBound p (itemsOfAll (code.map Stmt.lift))

lemma codeBound_append : CodeBound p (code ++ code') ↔ CodeBound p code ∧ CodeBound p code' := by
  unfold CodeBound
  rw [map_append, itemsOfAll_append, allBound_append]

lemma codeBound_single : CodeBound p [s] ↔ AllBound p (itemsOf s.lift) := by
  simp [CodeBound, itemsOfAll]

/-- Code, and values for the code after it, that have the labels of items in their order, and no
names but theirs. -/
structure Mirrors (p : Program) (is : List Item) (code : List Stmt) (xs : List Expr) : Prop where
  labels : marksOf code = marks is
  code : AllBound p is → CodeBound p code
  values : AllBound p is → ValuesBound p xs

lemma Mirrors.nil : Mirrors p [] [] [] :=
  ⟨rfl, fun _ => allBound_nil, fun _ _ hx => by cases hx⟩

lemma Mirrors.append {is js code code' xs ys} (h : Mirrors p is code xs)
    (h' : Mirrors p js code' ys) :
    Mirrors p (is ++ js) (code ++ code') (xs ++ ys) := by
  refine ⟨by rw [marksOf_append, marks_append, h.labels, h'.labels], fun hb => ?_,
    fun hb => ?_⟩
  · obtain ⟨hi, hj⟩ := allBound_append.1 hb
    exact codeBound_append.2 ⟨h.code hi, h'.code hj⟩
  · obtain ⟨hi, hj⟩ := allBound_append.1 hb
    exact forall_mem_append.2 ⟨h.values hi, h'.values hj⟩

lemma Mirrors.congr {is js code xs} (h : Mirrors p is code xs) (hm : marks js = marks is)
    (hb : AllBound p js → AllBound p is) :
    Mirrors p js code xs :=
  ⟨h.labels.trans hm.symm, fun hj => h.code (hb hj), fun hj => h.values (hb hj)⟩

lemma Mirrors.node {is code xs} (h : Mirrors p is code xs) (n : Structured.Node) :
    Mirrors p (is ++ [.node n]) code xs :=
  h.congr (by simp [marks]) fun hb => (allBound_append.1 hb).1

lemma Mirrors.value {is code xs} (h : Mirrors p is code xs) {y}
    (hy : ValuesBound p xs → AllBound p (itemsOfExpr y.lift)) : Mirrors p is code [y] :=
  ⟨h.labels, h.code, fun hb => forall_mem_singleton.2 (hy (h.values hb))⟩

lemma Mirrors.values_nil {is code xs} (h : Mirrors p is code xs) : Mirrors p is code [] :=
  ⟨h.labels, h.code, fun _ x hx => by cases hx⟩

lemma Mirrors.stmt {is code xs} (h : Mirrors p is code xs) {s} (hl : marksOf [s] = [])
    (hs : AllBound p is → ValuesBound p xs → AllBound p (itemsOf s.lift)) :
    Mirrors p is (code ++ [s]) [] := by
  refine ⟨by rw [marksOf_append, hl, List.append_nil, h.labels], fun hb => ?_, fun _ x hx => ?_⟩
  · exact codeBound_append.2 ⟨h.code hb, codeBound_single.2 (hs hb (h.values hb))⟩
  · cases hx

lemma Saves.bound {moves} (h : Saves taken xs k moves ys k') :
    marksOf moves = [] ∧ (ValuesBound p xs → CodeBound p moves ∧ ValuesBound p ys) := by
  induction h with
  | nil => exact ⟨rfl, fun h => ⟨allBound_nil, h⟩⟩
  | keep _ _ ih =>
    refine ⟨ih.1, fun hb => ?_⟩
    obtain ⟨hx, hxs⟩ := forall_mem_cons.1 hb
    obtain ⟨hc, hv⟩ := ih.2 hxs
    exact ⟨hc, forall_mem_cons.2 ⟨hx, hv⟩⟩
  | save _ _ _ ih =>
    refine ⟨?_, fun hb => ?_⟩
    · rw [← singleton_append, marksOf_append, ih.1, marksOf_single]
      rfl
    · obtain ⟨hx, hxs⟩ := forall_mem_cons.1 hb
      obtain ⟨hc, hv⟩ := ih.2 hxs
      refine ⟨?_, forall_mem_cons.2 ⟨?_, hv⟩⟩
      · rw [← singleton_append, codeBound_append, codeBound_single]
        exact ⟨by simpa [Stmt.lift, itemsOf, itemsOfExpr] using hx, hc⟩
      · simp [Expr.lift, itemsOfExpr]

lemma Mirrors.join {is js code pre moves xs zs x k k'} (h : Mirrors p is code xs)
    (hx : Mirrors p js pre [x]) (hj : Joins taken xs k pre moves zs k') :
    Mirrors p (is ++ js) (code ++ (moves ++ pre)) (zs ++ [x]) := by
  cases hj with
  | plain => simpa using h.append hx
  | after _ hs =>
    obtain ⟨hm, hb⟩ := hs.bound (p := p)
    have hsaved : Mirrors p is (code ++ moves) zs := by
      refine ⟨by rw [marksOf_append, hm, List.append_nil, h.labels], fun hi => ?_,
        fun hi => (hb (h.values hi)).2⟩
      exact codeBound_append.2 ⟨h.code hi, (hb (h.values hi)).1⟩
    rw [← append_assoc]
    exact hsaved.append hx

lemma Mirrors.call (h : Mirrors p is pre (x :: xs)) (returns : Int) (dest : String) :
    Mirrors p is (pre ++ [.call returns dest x xs]) [] := by
  refine h.stmt ?_ fun _ hv => ?_
  · rw [marksOf_single]
    simp only [Stmt.lift]
    split <;> rfl
  · obtain ⟨hx, hxs⟩ := forall_mem_cons.1 hv
    have hargs := allBound_values.2 hxs
    simp only [Stmt.lift]
    split <;> simp [itemsOf, itemsOfExpr, hx, hargs]

lemma Ends.mirrors (h : Ends T t s) (hm : Mirrors p is code s.operands) :
    Mirrors p (is ++ [.node (.stmt t)]) (code ++ [s]) [] := by
  cases h with
  | call | expCall | moveCall => exact (hm.node _).call _ _
  | ret =>
    refine (hm.node _).stmt (marksOf_single _) fun _ hv => ?_
    simpa [Stmt.lift, itemsOf, Stmt.operands] using allBound_values.2 hv
  | cjump =>
    refine (hm.node _).stmt (marksOf_single _) fun hb hv => ?_
    have hbranch := (allBound_node.1 (allBound_append.1 hb).2).1
    rw [Stmt.lift, itemsOf, allBound_append, allBound_node]
    exact ⟨hv _ (mem_singleton_self _), hbranch, allBound_nil⟩
  | _ =>
    refine (hm.node _).stmt (marksOf_single _) fun _ hv => ?_
    simpa [Stmt.lift, itemsOf, itemsOfExpr, ValuesBound, Stmt.operands] using hv

/-- Lowered code mirrors the items that it comes from. -/
lemma Assembles.mirrors (h : Assembles taken T is k code xs k') : Mirrors p is code xs := by
  induction h with
  | nil => exact .nil
  | label =>
    refine ⟨rfl, fun _ => ?_, fun _ x hx => by cases hx⟩
    simp [CodeBound, Stmt.lift, itemsOfAll, itemsOf, AllBound, nodes]
  | const | name | temp _ => exact ⟨rfl, fun _ => allBound_nil, fun hb => forall_mem_singleton.2 hb⟩
  | node _ _ _ ih => exact ih.congr (by simp [marks]) fun hb => by simp_all
  | value y hy _ ih =>
    refine ih.value fun hv => ?_
    cases y <;> simp_all [Expr.operands, Expr.lift, itemsOfExpr, ValuesBound]
  | drop _ ih => exact ih.values_nil
  | append _ _ ih ih' => exact ih.append ih'
  | join _ _ hj ih ih' => exact ih.join ih' hj
  | result _ _ ih => exact (ih.call 0 _).value fun _ => by simp [Expr.lift, itemsOfExpr]
  | stmt s hs _ ih => exact hs.mirrors ih

end

end TreeMachine.Flat

/-! ### Laying out by names -/

namespace TreeMachine.Linear.Program

/-- Two programs define the same names, and have functions of the same names in the same order. -/
structure SameNames (p q : Program) : Prop where
  labels : ∀ l, l ∈ q.labels ↔ l ∈ p.labels
  funcs : q.funcs.map Range.name = p.funcs.map Range.name

/-- Two attempts to lay out a unit end in the same way: both fail with the same error, or both give
programs with the same names. -/
inductive Agree {ε : Type} : Except ε Program → Except ε Program → Prop where
  | ok {p q : Program} (same : SameNames p q) : Agree (.ok p) (.ok q)
  | error (c : ε) : Agree (.error c) (.error c)

section

variable {p q : Program} {f g : Structured.Function}

lemma Agree.bind (h : Agree x y) (hab : ∀ p q, SameNames p q → Agree (a p) (b q)) :
    Agree (x >>= a) (y >>= b) := by
  cases h with
  | ok same => exact hab _ _ same
  | error c => exact .error c

lemma Agree.ok_iff (h : Agree x y) : (∃ p, x = .ok p) ↔ ∃ q, y = .ok q := by
  cases h with
  | ok same => simp
  | error c => simp

lemma Agree.error_eq (h : Agree x y) (hx : x = .error c) : y = .error c := by
  cases h with
  | ok same => cases hx
  | error c' => exact hx

lemma Agree.sameNames (h : Agree x y) (hx : x = .ok p) (hy : y = .ok q) : SameNames p q := by
  cases h with
  | ok same =>
    cases hx
    cases hy
    exact same
  | error c => cases hx

lemma SameNames.define (h : SameNames p q) (name : String) :
    Agree (p.define name) (q.define name) := by
  by_cases hmem : name ∈ p.labels
  · have hp : p.labels.contains name = true := Std.TreeMap.mem_iff_contains.1 hmem
    have hq : q.labels.contains name = true :=
      Std.TreeMap.mem_iff_contains.1 ((h.labels name).2 hmem)
    simp only [Program.define, hp, hq, if_true]
    exact .error _
  · rw [define_of_not_mem hmem, define_of_not_mem (mt (h.labels name).1 hmem)]
    refine .ok ⟨fun l => ?_, h.funcs⟩
    rw [mem_labels_insert, mem_labels_insert, h.labels]

lemma SameNames.place (h : SameNames p q) (hm : marks js = marks is) :
    Agree (is.foldlM Program.place p) (js.foldlM Program.place q) := by
  induction is generalizing p q js with
  | nil =>
    -- what is left are nodes
    induction js generalizing q with
    | nil => exact .ok h
    | cons j js ih =>
      cases j with
      | mark l => cases hm
      | node n => exact ih ⟨h.labels, h.funcs⟩ hm
  | cons i is ih =>
    cases i with
    | node n => exact ih ⟨h.labels, h.funcs⟩ hm
    | mark l =>
      induction js generalizing q with
      | nil => cases hm
      | cons j js ihj =>
        cases j with
        | node n => exact ihj ⟨h.labels, h.funcs⟩ hm
        | mark l' =>
          obtain ⟨rfl, hms⟩ := List.cons.inj hm
          rw [foldlM_cons, foldlM_cons]
          exact (h.define l').bind fun _ _ hnext => ih hnext hms

lemma SameNames.addFunction (h : SameNames p q) (hname : g.name = f.name)
    (hm : marks (itemsOf g.body) = marks (itemsOf f.body)) :
    Agree (p.addFunction f) (q.addFunction g) := by
  unfold Program.addFunction
  rw [hname]
  refine (h.define f.name).bind fun p1 q1 h1 => (h1.place hm).bind fun p2 q2 h2 => ?_
  refine .ok ⟨h2.labels, ?_⟩
  simp [h2.funcs]

lemma SameNames.addNamed (h : SameNames p q) (hname : g.name = f.name)
    (hm : marks (itemsOf g.body) = marks (itemsOf f.body)) :
    Agree (p.addNamed f) (q.addNamed g) := by
  have hadd := h.addFunction hname hm
  unfold Program.addNamed
  rw [hname]
  generalize p.addFunction f = x, q.addFunction g = y at hadd
  cases hadd with
  | ok same => exact .ok same
  | error c => exact .error _

lemma agree_ofUnit (h : List.Forall₂ (fun f g => g.name = f.name ∧
    marks (itemsOf g.body) = marks (itemsOf f.body)) u.functions v.functions) :
    Agree (ofUnit u) (ofUnit v) := by
  have hfold : ∀ {fs gs : List Structured.Function} {p q : Program}, SameNames p q →
      List.Forall₂ (fun f g => g.name = f.name ∧
        marks (itemsOf g.body) = marks (itemsOf f.body)) fs gs →
      Agree (fs.foldlM Program.addNamed p) (gs.foldlM Program.addNamed q) := by
    intro fs gs p q hs hfg
    induction hfg generalizing p q with
    | nil => exact .ok hs
    | cons hfg _ ih =>
      rw [foldlM_cons, foldlM_cons]
      exact (hs.addNamed hfg.1 hfg.2).bind fun _ _ hnext => ih hnext
  rw [ofUnit_eq, ofUnit_eq]
  exact hfold ⟨fun _ => Iff.rfl, rfl⟩ h

lemma duplicate_of_define (h : p.define name = .error c) : c = .duplicateLabel name := by
  unfold Program.define at h
  split at h
  · cases h
    rfl
  · cases h

lemma duplicate_of_place (h : is.foldlM Program.place p = .error c) :
    ∃ name ∈ marks is, c = .duplicateLabel name := by
  induction is generalizing p with
  | nil => cases h
  | cons i is ih =>
    rw [foldlM_cons] at h
    cases i with
    | node n => exact ih h
    | mark l =>
      cases hd : p.place (.mark l) with
      | error c' =>
        rw [hd] at h
        cases h
        exact ⟨l, mem_cons_self, duplicate_of_define hd⟩
      | ok q =>
        rw [hd] at h
        obtain ⟨name, hname, hdup⟩ := ih h
        exact ⟨name, mem_cons_of_mem _ hname, hdup⟩

lemma duplicate_of_addFunction (h : p.addFunction f = .error c) :
    ∃ name ∈ namesOf f, c = .duplicateLabel name := by
  unfold Program.addFunction at h
  cases hd : p.define f.name with
  | error c' =>
    rw [hd] at h
    cases h
    exact ⟨f.name, mem_cons_self, duplicate_of_define hd⟩
  | ok q =>
    rw [hd] at h
    cases hb : (itemsOf f.body).foldlM Program.place q with
    | error c' =>
      simp only [bind, Except.bind, hb] at h
      cases h
      obtain ⟨name, hname, hdup⟩ := duplicate_of_place hb
      exact ⟨name, mem_cons_of_mem _ hname, hdup⟩
    | ok r =>
      simp only [bind, Except.bind, hb] at h
      cases h

/-- A unit cannot be laid out only if a name of some function is defined twice, and the error says
which. -/
lemma duplicate_of_ofUnit (h : ofUnit u = .error e) : ∃ f ∈ u.functions, ∃ name ∈ namesOf f,
      e = .within s!"function {f.name}" (.fault (.duplicateLabel name) {}) := by
  have hfold : ∀ {fs : List Structured.Function} {p : Program},
      fs.foldlM Program.addNamed p = .error e → ∃ f ∈ fs, ∃ name ∈ namesOf f,
        e = .within s!"function {f.name}" (.fault (.duplicateLabel name) {}) := by
    intro fs
    induction fs with
    | nil => intro p hp; cases hp
    | cons f fs ih =>
      intro p hp
      rw [foldlM_cons] at hp
      cases hf : p.addFunction f with
      | error c =>
        obtain ⟨name, hname, rfl⟩ := duplicate_of_addFunction hf
        simp only [Program.addNamed, hf, Except.mapError, Error.wrap] at hp
        cases hp
        exact ⟨f, mem_cons_self, name, hname, rfl⟩
      | ok q =>
        rw [addNamed_eq_ok_iff.2 hf] at hp
        obtain ⟨g, hg, hname⟩ := ih hp
        exact ⟨g, mem_cons_of_mem f hg, hname⟩
  rw [ofUnit_eq] at h
  exact hfold h

lemma link_eq_ok : p.link = .ok () ↔ ∀ n ∈ p.code.toList, Bound p n := by
  unfold link
  cases hd : p.code.toList.findSome? p.danglingName with
  | none => exact iff_of_true rfl (List.findSome?_eq_none_iff.1 hd)
  | some name =>
    refine iff_of_false (fun h => by cases h) fun h => ?_
    rw [List.findSome?_eq_none_iff.2 h] at hd
    cases hd

lemma SameNames.bound (h : SameNames p q) (hn : Bound p n) : Bound q n := by
  have hcontains : ∀ l, q.labels.contains l = p.labels.contains l := fun l =>
    Bool.eq_iff_iff.2 (h.labels l)
  have hdangling : q.danglingName n = p.danglingName n := by
    unfold danglingName resolves
    simp only [hcontains]
  exact hdangling.trans hn

end

end TreeMachine.Linear.Program

/-! ### Units -/

namespace TreeMachine.Flat

open Linear

/-- Both forms of a unit have the same labels. Every function has them in the same order; the forms
can be laid out or fail alike, for the same name in the same function; they define the same names,
and the flat form can be linked if the structured form can. -/
theorem labels_lowered {u : Structured.CodeUnit} {l : CodeUnit}
    (h : CodeUnit.ofStructured u = .ok l) :
    List.Forall₂ (fun f g => g.lift.name = f.name ∧
      marks (itemsOf g.lift.body) = marks (itemsOf f.body)) u.functions l.functions ∧
    ((∃ p, Program.ofUnit u = .ok p) ↔ ∃ q, Program.ofFlat l = .ok q) ∧
    (∀ e, Program.ofUnit u = .error e → Program.ofFlat l = .error e ∧
      ∃ f ∈ u.functions, ∃ name ∈ Program.namesOf f,
        e = .within s!"function {f.name}" (.fault (.duplicateLabel name) {})) ∧
    ∀ p q, Program.ofUnit u = .ok p → Program.ofFlat l = .ok q →
      (∀ name, name ∈ q.labels ↔ name ∈ p.labels) ∧
      q.funcs.map (·.name) = p.funcs.map (·.name) ∧
      (p.link = .ok () → q.link = .ok ()) := by
  have hmirrors : ∀ p, List.Forall₂ (fun f g => g.name = f.name ∧
      Mirrors p (itemsOf f.body) g.body []) u.functions l.functions := fun p =>
    (flattens_of_ofStructured h).forall₂ fun _ _ _ _ _ hbody =>
      ⟨rfl, (assembles_stmt hbody fun _ h => h).mirrors⟩
  have hlabels : List.Forall₂ (fun f g => g.lift.name = f.name ∧
      marks (itemsOf g.lift.body) = marks (itemsOf f.body)) u.functions l.functions :=
    (hmirrors default).imp fun f g hfg => ⟨hfg.1, (marks_body_lift g).trans hfg.2.labels⟩
  have hagree : Program.Agree (Program.ofUnit u) (Program.ofFlat l) := by
    refine Program.agree_ofUnit ?_
    show List.Forall₂ _ u.functions (l.functions.map Function.lift)
    exact forall₂_map_right_iff.2 hlabels
  refine ⟨hlabels, hagree.ok_iff, fun e he => ⟨hagree.error_eq he, Program.duplicate_of_ofUnit he⟩,
    fun p q hp hq => ?_⟩
  have hsame := hagree.sameNames hp hq
  refine ⟨hsame.labels, hsame.funcs, fun hlink => ?_⟩
  rw [Program.link_eq_ok, Program.code_of_ofUnit hp] at hlink
  rw [Program.link_eq_ok, Program.code_of_ofUnit hq]
  intro n hn
  obtain ⟨g', hg', hn⟩ := mem_flatMap.1 hn
  obtain ⟨g, hg, rfl⟩ := mem_map.1 hg'
  obtain ⟨f, hf, -, hfg⟩ := exists_of_forall₂ (hmirrors p) hg
  have hbound : AllBound p (itemsOf g.lift.body) := by
    rw [Function.lift, itemsOf, allBound_append]
    exact ⟨hfg.code fun n hn => hlink n (mem_flatMap.2 ⟨f, hf, hn⟩), by simp⟩
  exact hsame.bound (hbound n hn)

/-- A function whose label stands inside of an operand. -/
def nestedLabel : Structured.CodeUnit where
  name := "nested"
  functions := [{
    name := "main"
    params := []
    body := .ret [.binop .add (.temp "x")
      (.eseq (.seq [.jump (.name "L"), .label "L"]) (.call (.name "main") []))] }]

theorem labels_lowered_nestedLabel : ∃ l p q, CodeUnit.ofStructured nestedLabel = .ok l ∧
    Program.ofUnit nestedLabel = .ok p ∧ Program.ofFlat l = .ok q ∧
      l.functions.map (fun g => marks (itemsOf g.lift.body)) = [["L"]] ∧
      p.link = .ok () ∧ q.link = .ok () := by
  have hrun : ((CodeUnit.ofStructured nestedLabel).toOption.bind fun l =>
    (Program.ofUnit nestedLabel).toOption.map fun p => p.link.toBool) = some true := by
    decide +kernel
  obtain ⟨l, hl, hrun⟩ := Except.bind_eq_some.1 hrun
  obtain ⟨p, hp, hlink⟩ := Except.map_eq_some.1 hrun
  replace hlink : p.link = .ok () := by
    cases hlinked : p.link with
    | ok _ => rfl
    | error e =>
      rw [hlinked] at hlink
      cases hlink
  obtain ⟨hlabels, hok, -, hsame⟩ := labels_lowered hl
  obtain ⟨q, hq⟩ := hok.1 ⟨p, hp⟩
  exact ⟨l, p, q, hl, hp, hq, map_eq_of_forall₂ hlabels fun hfg => hfg.2, hlink,
    (hsame p q hp hq).2.2 hlink⟩

end TreeMachine.Flat
