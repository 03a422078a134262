import TreeMachine.Proofs.CompiledConfined
import TreeMachine.Proofs.LoweredUnit
import TreeMachine.Proofs.Progress

/-!
# Linking

Every name in confined code is defined: jumps and branches go to labels of the function they
stand in, and what is called can be called. So a confined unit whose names are all different
can be laid out and linked, and there is a machine for it. Loaded programs have such code in
both forms.
-/

open List

namespace TreeMachine.Linear

open Structured

section

variable {p : Program} {ok : String → Prop} {esc : List String}

def Bound (p : Program) (n : Node) : Prop :=
  p.danglingName n = none

lemma bound_name (h : p.resolves l = true) : Bound p (.expr (.name l)) := by
  simp [Bound, Program.danglingName, h]

lemma resolves_of_mem (h : l ∈ p.labels) : p.resolves l = true := by
  rw [Program.resolves, Std.TreeMap.mem_iff_contains.1 h, Bool.true_or]

lemma bound_cjump (hy : yes ∈ p.labels) (hn : no ∈ p.labels) :
    Bound p (.stmt (.cjump x yes no)) := by
  simp [Bound, Program.danglingName, Std.TreeMap.mem_iff_contains.1 hy,
    Std.TreeMap.mem_iff_contains.1 hn]

/-- Items use no name that nothing defines, if their own labels are defined. -/
def Links (p : Program) (is : List Item) : Prop :=
  (∀ l ∈ marks is, l ∈ p.labels) → ∀ n ∈ nodes is, Bound p n

lemma Links.nil : Links p [] :=
  fun _ n hn => by cases hn

lemma Links.node (h : Bound p n) : Links p [.node n] := by
  intro _ m hm
  obtain rfl : m = n := by simpa [nodes] using hm
  exact h

lemma Links.append (hx : Links p xs) (hy : Links p ys) : Links p (xs ++ ys) := by
  intro hl
  rw [marks_append] at hl
  rw [nodes_append]
  obtain ⟨hlx, hly⟩ := forall_mem_append.1 hl
  exact forall_mem_append.2 ⟨hx hlx, hy hly⟩

mutual

lemma links_expr (hok : ∀ f, ok f → p.resolves f = true) (hesc : ∀ l ∈ esc, l ∈ p.labels) :
    (x : Expr) → x.Confined ok esc → Links p (itemsOfExpr x)
  | .const _, _ => .node rfl
  | .temp _, _ => .node rfl
  | .mem addr, hc => (links_expr hok hesc addr hc).append (.node rfl)
  | .binop _ left right, hc =>
    ((links_expr hok hesc left hc.2.1).append (links_expr hok hesc right hc.2.2)).append (.node rfl)
  | .unop _ x, hc => (links_expr hok hesc x hc).append (.node rfl)
  | .call (.name f) args, hc =>
    ((Links.node (bound_name (hok f hc.1))).append (links_exprs hok hesc args hc.2)).append
      (.node rfl)
  | .eseq s x, hc =>
    ((links_stmt hok hesc s hc.1 (by simp)).append (links_expr hok hesc x hc.2)).append
      (.node rfl)

lemma links_exprs (hok : ∀ f, ok f → p.resolves f = true) (hesc : ∀ l ∈ esc, l ∈ p.labels) :
    (xs : List Expr) → Expr.ConfinedAll ok esc xs → Links p (itemsOfExprs xs)
  | [], _ => .nil
  | x :: xs, hc => (links_expr hok hesc x hc.1).append (links_exprs hok hesc xs hc.2)

lemma links_stmt (hok : ∀ f, ok f → p.resolves f = true) (hesc : ∀ l ∈ esc, l ∈ p.labels) {scope} :
    (s : Stmt) → s.Confined ok esc scope → (∀ l ∈ scope, l ∈ p.labels) → Links p (itemsOf s)
  | .skip, _, _ => .nil
  | .label _, _, _ => fun _ n hn => by cases hn
  | .seq ss, hc, hscope => by
    intro hl
    -- the labels of the list are among the ones that are defined
    have hmarks : ∀ l ∈ marks (itemsOfAll ss), l ∈ p.labels := by
      rw [itemsOf, marks_append] at hl
      exact (forall_mem_append.1 hl).1
    have hin : ∀ l ∈ labelsIn ss ++ scope, l ∈ p.labels :=
      forall_mem_append.2 ⟨fun l hm => hmarks l (Flat.lab_of_labelsIn hm), hscope⟩
    exact (links_stmts hok hesc ss hc.2 hin).append (.node rfl) hl
  | .move (.temp r) src, hc, _ =>
    ((links_expr hok hesc (.temp r) trivial).append (links_expr hok hesc src hc)).append (.node rfl)
  | .move (.mem addr) src, hc, _ =>
    ((links_expr hok hesc (.mem addr) hc.1).append (links_expr hok hesc src hc.2)).append
      (.node rfl)
  | .exp x, hc, _ => (links_expr hok hesc x hc).append (.node rfl)
  | .jump (.name l), hc, hscope =>
    (Links.node (bound_name (resolves_of_mem (hc.elim (hscope l) (hesc l))))).append (.node rfl)
  | .cjump x yes no, hc, hscope =>
    (links_expr hok hesc x hc.1).append (.node (bound_cjump
      (hc.2.1.elim (hscope yes) (hesc yes)) (hc.2.2.elim (hscope no) (hesc no))))
  | .ret xs, hc, _ => (links_exprs hok hesc xs hc).append (.node rfl)
  | .call _ (.name f) args, hc, _ =>
    ((Links.node (bound_name (hok f hc.1))).append (links_exprs hok hesc args hc.2)).append
      (.node rfl)

lemma links_stmts (hok : ∀ f, ok f → p.resolves f = true) (hesc : ∀ l ∈ esc, l ∈ p.labels)
    {scope} : (ss : List Stmt) → Stmt.ConfinedAll ok esc scope ss → (∀ l ∈ scope, l ∈ p.labels) →
    Links p (itemsOfAll ss)
  | [], _, _ => .nil
  | s :: ss, hc, hscope =>
    (links_stmt hok hesc s hc.1 hscope).append (links_stmts hok hesc ss hc.2 hscope)

end

end

/-! ### Units -/

section

variable {u : CodeUnit} {p : Program}

lemma resolves_of_callable (hp : Program.ofUnit u = .ok p) (h : Machine.Callable u f) :
    p.resolves f = true := by
  rcases h with h | ⟨hr, -⟩
  · obtain ⟨g, hg⟩ := Option.isSome_iff_exists.1 h
    obtain ⟨hmem, rfl⟩ := Machine.mem_of_lookup hg
    exact resolves_of_mem ((Program.mem_labels_iff hp _).2 (Machine.mem_unitNames hmem))
  · rw [Program.resolves, hr, Bool.or_true]

/-- A confined unit that was laid out can be linked. -/
lemma link_of_confined (hp : Program.ofUnit u = .ok p)
    (hc : ∀ f ∈ u.functions, f.Confined (Machine.Callable u)) : p.link = .ok () := by
  have hbound : ∀ n ∈ p.code.toList, p.danglingName n = none := by
    rw [Program.code_of_ofUnit hp]
    intro n hn
    obtain ⟨f, hf, hn⟩ := mem_flatMap.1 hn
    obtain ⟨ss, esc, scope, hbody, hconf, hlabels⟩ := Flat.confinedAll_body (hc f hf)
    have hmarks : ∀ l ∈ marks (itemsOfAll ss), l ∈ p.labels := by
      intro l hl
      rw [Program.mem_labels_iff hp]
      refine mem_flatMap.2 ⟨f, hf, mem_cons_of_mem _ ?_⟩
      rw [hbody, itemsOf, marks_append]
      exact mem_append_left _ hl
    obtain ⟨hesc, hscope⟩ := forall_mem_append.1 fun l hl =>
      hmarks l (Flat.lab_of_labelsIn (hlabels l hl))
    rw [hbody, itemsOf, nodes_append] at hn
    rcases mem_append.1 hn with hn | hn
    · exact links_stmts (fun f => resolves_of_callable hp) hesc ss hconf hscope hmarks n hn
    · obtain rfl : n = .stmt (.seq ss) := by simpa [nodes] using hn
      rfl
  have hnone : p.code.toList.findSome? p.danglingName = none :=
    List.findSome?_eq_none_iff.2 hbound
  rw [Program.link, hnone]

/-- A confined unit whose names are all different can be laid out and linked. -/
lemma linked_of_confined (hn : (Program.unitNames u).Nodup)
    (hc : ∀ f ∈ u.functions, f.Confined (Machine.Callable u)) :
    ∃ p, Program.ofUnit u = .ok p ∧ p.link = .ok () := by
  obtain ⟨p, hp⟩ := Program.ofUnit_succeeds hn
  exact ⟨p, hp, link_of_confined hp hc⟩

end

end TreeMachine.Linear

namespace TreeMachine.Machine

open Structured

lemma ofProgram_of_link (h : p.link = .ok ()) (o : Options) :
    ∃ m, ofProgram p o = .ok m ∧ m.setup.program = p := by
  unfold ofProgram
  rw [h]
  exact ⟨_, rfl, rfl⟩

/-- Building a loaded program whose function names have no point. Code for it exists exactly
if every assignment goes to a variable or an array element, and otherwise it is refused. What
has code can be lowered, and both forms can be laid out, linked and run. -/
theorem build_of_load {text file : String} {q : Tree.Program}
    (hload : Document.load text file = .ok q) (hnames : ∀ f ∈ q.functions, Pointless f.name) :
    ((∃ u, CodeUnit.ofTree q = .ok u) ↔ q.Assignable) ∧
      (¬q.Assignable → ∃ e, CodeUnit.ofTree q = .error e ∧ e.code = "UNSUPPORTED_NODE") ∧
      ∀ u, CodeUnit.ofTree q = .ok u → ∃ l pu pl,
        Flat.CodeUnit.ofStructured u = .ok l ∧
        Linear.Program.ofUnit u = .ok pu ∧ pu.link = .ok () ∧
        Linear.Program.ofFlat l = .ok pl ∧ pl.link = .ok () ∧
        ∀ o, (∃ m, ofUnit? (some u) o = .ok m ∧ m.setup.program = pu) ∧
          ∃ m, ofFlat? (some l) o = .ok m ∧ m.setup.program = pl := by
  obtain ⟨hok, hno⟩ := ofTree_of_load hload
  obtain ⟨⟨p, hp⟩, -⟩ := Document.of_load hload
  refine ⟨⟨fun ⟨u, hu⟩ => ?_, hok⟩, hno, fun u hu => ?_⟩
  · by_contra hn
    obtain ⟨e, he, -⟩ := hno hn
    rw [hu] at he
    cases he
  · have hc := confined_of_ofTree hp hu
    have hn := nodup_unitNames hp hu hnames
    obtain ⟨l, hl⟩ := Flat.ofStructured_succeeds hc
    have hnl : (Linear.Program.unitNames l.lift).Nodup := by
      rw [Flat.unitNames_lift (Flat.lowered_of_ofStructured hc hl)]
      exact hn
    obtain ⟨pu, hpu, hlinku⟩ := Linear.linked_of_confined hn hc
    obtain ⟨pl, hpl, hlinkl⟩ := Linear.linked_of_confined hnl (Flat.confined_lift hc hl)
    refine ⟨l, pu, pl, hl, hpu, hlinku, hpl, hlinkl, fun o => ⟨?_, ?_⟩⟩
    · show ∃ m, (Linear.Program.ofUnit u >>= fun p => ofProgram p o) = .ok m ∧ _
      rw [hpu]
      exact ofProgram_of_link hlinku o
    · show ∃ m, (Linear.Program.ofUnit l.lift >>= fun p => ofProgram p o) = .ok m ∧ _
      rw [hpl]
      exact ofProgram_of_link hlinkl o

/-- A document with a function that stores the result of a call of itself in an array. -/
def storeDocument : String :=
  "\x7b\"format\": \"1.0.0\", \"functions\": [\x7b\"name\": \"f\", " ++
    "\"params\": [\x7b\"name\": \"a\", \"type\": \"int[]\"\x7d], \"body\": [\x7b\"kind\": \"assign\", " ++
    "\"target\": \x7b\"kind\": \"index\", \"array\": \x7b\"kind\": \"ident\", \"name\": \"a\"\x7d, " ++
    "\"index\": \x7b\"kind\": \"int\", \"value\": 0\x7d\x7d, " ++
    "\"value\": \x7b\"kind\": \"call\", \"func\": \"f\", \"args\": []\x7d\x7d]\x7d]\x7d"

/-- The function is built in both forms. -/
theorem build_of_storeDocument :
    ∃ q u l, Document.load storeDocument = .ok q ∧ (∀ f ∈ q.functions, Pointless f.name) ∧
      CodeUnit.ofTree q = .ok u ∧ Flat.CodeUnit.ofStructured u = .ok l ∧
      ∃ m, ofFlat? (some l) {} = .ok m := by
  have hrun : (match Document.load storeDocument with
      | .ok q => q.functions.all (fun f => decide (Pointless f.name)) &&
          (match CodeUnit.ofTree q with | .ok _ => true | .error _ => false)
      | .error _ => false) = true := by decide +kernel
  cases hq : Document.load storeDocument with
  | error e => simp [hq] at hrun
  | ok q =>
    rw [hq] at hrun
    obtain ⟨hnames, hcode⟩ := (Bool.and_eq_true _ _).mp hrun
    have hpoint : ∀ f ∈ q.functions, Pointless f.name := fun f hf =>
      of_decide_eq_true (List.all_eq_true.mp hnames f hf)
    cases hu : CodeUnit.ofTree q with
    | error e => simp [hu] at hcode
    | ok u =>
      obtain ⟨l, pu, pl, hl, -, -, -, -, hm⟩ := (build_of_load hq hpoint).2.2 u hu
      obtain ⟨-, m, hm, -⟩ := hm {}
      exact ⟨q, u, l, rfl, hpoint, hu, hl, m, hm⟩

end TreeMachine.Machine
