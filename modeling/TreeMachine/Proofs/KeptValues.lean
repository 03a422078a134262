import TreeMachine.Document.Load
import TreeMachine.Proofs.Scoping

/-!
# Expressions as assigned values

The value of an assignment is kept while a document is read, and read by itself afterwards. Then
fields that nodes do not have are passed over, and in the document they are refused. There is no
other difference between an expression that is assigned and one that is a statement.
-/

namespace TreeMachine.Tree

/-! ### Trees that differ in one statement -/

mutual

/-- Three statements that differ in one place only. The first two assign to a variable there, and
the third has the value that the second one assigns. -/
inductive Stmt.Differ : Stmt → Stmt → Stmt → Prop where
  | here (span id e0 e) : Stmt.Differ (.assign span (.ident id) e0) (.assign span (.ident id) e)
      (.expr span e)
  | block : Stmt.DifferAll ss0 ss ss' →
      Stmt.Differ (.block span scope ss0) (.block span scope ss) (.block span scope ss')
  | yes (no : Option Stmt) : Stmt.Differ s0 s s' → Stmt.Differ (.branch span x s0 no)
      (.branch span x s no) (.branch span x s' no)
  | no : Stmt.Differ s0 s s' → Stmt.Differ (.branch span x yes (some s0))
      (.branch span x yes (some s)) (.branch span x yes (some s'))
  | loop : Stmt.Differ s0 s s' →
      Stmt.Differ (.loop span x s0) (.loop span x s) (.loop span x s')

/-- Three lists of statements that differ in one place only. -/
inductive Stmt.DifferAll : List Stmt → List Stmt → List Stmt → Prop where
  | head : Stmt.Differ s0 s s' → Stmt.DifferAll (s0 :: ss) (s :: ss) (s' :: ss)
  | tail : Stmt.DifferAll ss0 ss ss' → Stmt.DifferAll (s :: ss0) (s :: ss) (s :: ss')

end

/-- What a statement declares, and whether it may. -/
def Stmt.outline (s : Stmt) : (Nat → List Symbol) × Nat × Prop :=
  (fun n => s.symbols n, s.count, s.Distinct)

def Stmt.outlineAll (ss : List Stmt) : (Nat → List Symbol) × Nat × Prop :=
  (fun n => Stmt.symbolsAll n ss, Stmt.countAll ss, Stmt.DistinctAll ss)

lemma Stmt.declaresAll_congr (h : Stmt.outlineAll ss = Stmt.outlineAll ss0) :
    Stmt.declaresAll ss = Stmt.declaresAll ss0 := by
  rw [← Stmt.names_symbolsAll 0, ← Stmt.names_symbolsAll 0]
  exact congrArg (fun o => (o.1 0).map (·.name)) h

mutual

lemma Stmt.Differ.outline : Stmt.Differ s0 s s' → s.outline = s0.outline ∧ s'.outline = s0.outline
  | .here _ _ _ _ => ⟨rfl, rfl⟩
  | .block h => by
    obtain ⟨hs, hs'⟩ := h.outline
    have hd := declaresAll_congr hs
    have hd' := declaresAll_congr hs'
    simp_all [Stmt.outline, Stmt.outlineAll, Stmt.symbols, Stmt.count, Stmt.Distinct]
  | .yes no h => by
    have := h.outline
    cases no <;> simp_all [Stmt.outline, Stmt.symbols, Stmt.count, Stmt.Distinct, funext_iff]
  | .no h => by
    have := h.outline
    simp_all [Stmt.outline, Stmt.symbols, Stmt.count, Stmt.Distinct, funext_iff]
  | .loop h => h.outline

lemma Stmt.DifferAll.outline : Stmt.DifferAll ss0 ss ss' →
    Stmt.outlineAll ss = Stmt.outlineAll ss0 ∧ Stmt.outlineAll ss' = Stmt.outlineAll ss0
  | .head h => by
    have := h.outline
    simp_all [Stmt.outline, Stmt.outlineAll, Stmt.symbolsAll, Stmt.countAll, Stmt.DistinctAll,
      funext_iff]
  | .tail h => by
    have := h.outline
    simp_all [Stmt.outlineAll, Stmt.symbolsAll, Stmt.countAll, Stmt.DistinctAll, funext_iff]

end

mutual

lemma Stmt.Differ.finds : Stmt.Differ s0 s s' → ∀ {inner outer n},
    s0.Finds inner outer n → (s.Finds inner outer n ↔ s'.Finds inner outer n)
  | .here _ _ _ _, _, _, _, h0 => and_iff_right h0.1
  | .block h, _, _, _, h0 => h.finds h0
  | .yes none h, _, _, _, h0 => and_congr_right fun _ => h.finds h0.2
  | .yes (some no) h, _, _, _, h0 => by
    have := h.outline
    have := h.finds h0.2.1
    simp_all [Stmt.outline, Stmt.Finds, funext_iff]
  | .no h, _, _, _, h0 => and_congr_right fun _ => and_congr_right fun _ => h.finds h0.2.2
  | .loop h, _, _, _, h0 => and_congr_right fun _ => h.finds h0.2

lemma Stmt.DifferAll.finds : Stmt.DifferAll ss0 ss ss' → ∀ {inner outer n},
    Stmt.FindsAll inner outer n ss0 →
    (Stmt.FindsAll inner outer n ss ↔ Stmt.FindsAll inner outer n ss')
  | .head h, _, _, _, h0 => by
    have := h.outline
    have := h.finds h0.1
    simp_all [Stmt.outline, Stmt.FindsAll, funext_iff]
  | .tail h, _, _, _, h0 => and_congr_right fun _ => h.finds h0.2

end

mutual

lemma Stmt.Differ.bound : Stmt.Differ s0 s s' → ∀ inner outer n,
    Stmt.Differ (s0.bound inner outer n) (s.bound inner outer n) (s'.bound inner outer n)
  | .here _ _ _ _, _, _, _ => .here _ _ _ _
  | .block h, _, _, n => by
    have hs := congrFun (congrArg Prod.fst h.outline.1) n
    have hs' := congrFun (congrArg Prod.fst h.outline.2) n
    simp only [Stmt.outlineAll] at hs hs'
    simp only [Stmt.bound, hs, hs']
    exact .block (h.bound _ _ n)
  | .yes none h, _, _, _ => .yes _ (h.bound _ _ _)
  | .yes (some no) h, inner, outer, n => by
    have := h.outline
    simp_all only [Stmt.outline, Stmt.bound, Prod.mk.injEq, funext_iff]
    exact .yes _ (h.bound _ _ _)
  | .no h, _, _, _ => .no (h.bound _ _ _)
  | .loop h, _, _, _ => .loop (h.bound _ _ _)

lemma Stmt.DifferAll.bound : Stmt.DifferAll ss0 ss ss' → ∀ inner outer n,
    Stmt.DifferAll (Stmt.boundAll inner outer n ss0) (Stmt.boundAll inner outer n ss)
      (Stmt.boundAll inner outer n ss')
  | .head h, _, _, _ => by
    have := h.outline
    simp_all only [Stmt.outline, Stmt.boundAll, Prod.mk.injEq, funext_iff]
    exact .head (h.bound _ _ _)
  | .tail h, _, _, _ => .tail (h.bound _ _ _)

end

/-- Three lists of functions that differ in one statement. -/
inductive Function.DifferAll : List Function → List Function → List Function → Prop where
  | head (f : Function) (body : Body) : Stmt.DifferAll ss0 ss ss' →
      Function.DifferAll ({ f with body := some { body with stmts := ss0 } } :: fs)
        ({ f with body := some { body with stmts := ss } } :: fs)
        ({ f with body := some { body with stmts := ss' } } :: fs)
  | tail : Function.DifferAll fs0 fs fs' → Function.DifferAll (f :: fs0) (f :: fs) (f :: fs')

/-- Three programs that differ in one statement. -/
inductive Program.Differ : Program → Program → Program → Prop where
  | mk (p : Program) : Function.DifferAll fs0 fs fs' →
      Program.Differ { p with functions := fs0 } { p with functions := fs }
        { p with functions := fs' }

def Function.outlineAll (fs : List Function) : (Nat → List Symbol) × Nat × Prop :=
  (fun n => functionSymbols n fs, fs.length, ∀ f ∈ fs, f.Distinct)

lemma Function.DifferAll.outline (h : Function.DifferAll fs0 fs fs') :
    Function.outlineAll fs = Function.outlineAll fs0 ∧
      Function.outlineAll fs' = Function.outlineAll fs0 := by
  induction h with
  | head f body h =>
    obtain ⟨hs, hs'⟩ := h.outline
    have hd := Stmt.declaresAll_congr hs
    have hd' := Stmt.declaresAll_congr hs'
    simp_all [Function.outlineAll, Stmt.outlineAll, functionSymbols, Function.Distinct,
      Function.stmts]
  | tail h ih => simp_all [Function.outlineAll, functionSymbols, funext_iff]

lemma Function.DifferAll.finds (h : Function.DifferAll fs0 fs fs')
    (h0 : Function.FindsAll outer n fs0) :
    Function.FindsAll outer n fs ↔ Function.FindsAll outer n fs' := by
  induction h generalizing n with
  | head f body h =>
    have := h.outline
    have hs : Stmt.FindsAll _ _ _ _ ↔ _ := h.finds h0.1
    simp_all [Stmt.outlineAll, Function.FindsAll, Function.Finds, Function.count, Function.stmts,
      Function.parameters]
  | tail h ih => exact and_congr_right fun _ => ih h0.2

lemma Function.DifferAll.bound (h : Function.DifferAll fs0 fs fs') (outer : List Scope) (n : Nat) :
    Function.DifferAll (Function.boundAll outer n fs0) (Function.boundAll outer n fs)
      (Function.boundAll outer n fs') := by
  induction h generalizing n with
  | head f body h =>
    have := h.outline
    simp_all only [Stmt.outlineAll, Function.boundAll, Function.bound, Function.count,
      Function.stmts, Function.parameters, Prod.mk.injEq, funext_iff, Option.getD_some]
    exact .head { f with scope := some _ } { body with scope := some _ } (h.bound _ _ _)
  | tail h ih => exact .tail (ih _)

/-- Whether names are found does not depend on which of the two statements is there, as long as the
variable is found. -/
lemma Program.Differ.resolve (h : Program.Differ p0 p p') (h0 : p0.resolve = .ok q0) :
    ((∃ q, p.resolve = .ok q) ↔ ∃ q', p'.resolve = .ok q') ∧
      ∀ {q q'}, p.resolve = .ok q → p'.resolve = .ok q' → Program.Differ q0 q q' := by
  obtain ⟨p, h⟩ := h
  simp only [(makes_program _).eq_ok_iff] at h0 ⊢
  obtain ⟨⟨-, hf⟩, rfl⟩ := h0
  have ho := h.outline
  have hfinds := h.finds hf
  have hnames : ∀ {fs fs0}, Function.outlineAll fs = Function.outlineAll fs0 →
      fs.map (·.name) = fs0.map (·.name) := fun {fs fs0} he => by
    rw [← names_functionSymbols 0, ← names_functionSymbols 0]
    exact congrArg (fun o => (o.1 0).map (·.name)) he
  have hn := hnames ho.1
  have hn' := hnames ho.2
  simp_all only [Function.outlineAll, Program.Distinct, Program.Finds, Program.globals,
    Program.bound, Prod.mk.injEq, funext_iff]
  refine ⟨by simp, ?_⟩
  rintro _ _ ⟨-, rfl⟩ ⟨-, rfl⟩
  exact .mk { p with scope := some _ } (h.bound _ _)

end TreeMachine.Tree

namespace TreeMachine.Document

/-! ### Unknown fields -/

mutual

/-- Whether every field of the nodes in a value is one that nodes have. What is below a kept value
does not count. -/
def Json.known : Json → Bool
  | .arr vs => Json.allKnown vs
  | .obj fs => Json.fieldsKnown fs
  | _ => true

def Json.allKnown : List Json → Bool
  | [] => true
  | v :: vs => v.known && Json.allKnown vs

def Json.fieldsKnown : List (String × String × Json) → Bool
  | [] => true
  | (key, _, v) :: rest =>
    ((Json.fieldName? nodeFields key).any fun name => name == "value" || v.known) &&
      Json.fieldsKnown rest

end

/-- A strict reading succeeds exactly if something holds and a loose one does, and then with the
same result. -/
def Strictly {α : Type} (p : Bool) (strict loose : Option α) : Prop :=
  ∀ a, strict = some a ↔ p = true ∧ loose = some a

namespace Strictly

variable {α β : Type} {p q : Bool} {m l : Option α} {f g : α → Option β}

lemma pure (a : α) : Strictly true (some a) (some a) :=
  fun _ => by simp

lemma same (h : ∀ a, m = some a → p = true) : Strictly p m m :=
  fun a => ⟨fun ha => ⟨h a ha, ha⟩, And.right⟩

lemma bind (h : Strictly p m l) (hf : ∀ a, Strictly q (f a) (g a)) :
    Strictly (p && q) (m >>= f) (l >>= g) := by
  intro b
  simp only [Option.bind_eq_bind, Option.bind_eq_some_iff, Bool.and_eq_true, h _, hf _ _]
  tauto

lemma set (h : Strictly p m l) (f : α → β) :
    Strictly p (m >>= fun a => Pure.pure (f a)) (l >>= fun a => Pure.pure (f a)) := by
  simpa using h.bind fun a => pure (f a)

end Strictly

lemma fieldName?_mem (h : Json.fieldName? names key = some name) : name ∈ names := by
  unfold Json.fieldName? at h
  split at h
  next hc =>
    obtain rfl := Option.some.inj h
    simpa using hc
  next => exact List.mem_of_find?_eq_some h

lemma known_of_text (s) (h : textField old v = some s) : v.known = true := by
  cases v <;> simp_all [textField, Json.known]

lemma known_of_int (i) (h : intField old v = some i) : v.known = true := by
  cases v <;> simp_all [intField, Json.known]

lemma known_of_textItems (h : textItems old vs = some ss) : Json.allKnown vs = true := by
  induction vs generalizing old ss with
  | nil => rfl
  | cons v vs ih =>
    obtain ⟨s, hs, h⟩ := Option.bind_eq_some_iff.1 h
    obtain ⟨rest, hrest, -⟩ := Option.bind_eq_some_iff.1 h
    simp [Json.allKnown, known_of_text s hs, ih hrest]

lemma known_of_texts (r) (h : textsField old v = some r) : v.known = true := by
  cases v with
  | arr vs =>
    obtain ⟨ss, hss, -⟩ := Option.map_eq_some_iff.1 h
    exact known_of_textItems hss
  | _ => simp_all [textsField, Json.known]

lemma strictly_nodeOfField {n : Node} {kept : Unit → Option Node}
    (hnode : ∀ old, Strictly v.known (node old) (node' old))
    (hnodes : ∀ old, Strictly v.known (nodes old) (nodes' old)) :
    Strictly ((Json.fieldName? nodeFields key).any fun name => name == "value" || v.known)
      (nodeOfField true n key text v node nodes kept)
      (nodeOfField false n key text v node' nodes' kept) := by
  unfold nodeOfField
  cases h : Json.fieldName? nodeFields key with
  | none => exact fun _ => by simp
  | some name =>
    have hmem := fieldName?_mem h
    simp only [nodeFields, List.mem_cons, List.not_mem_nil, or_false] at hmem
    rcases hmem with rfl | rfl | rfl | rfl | rfl | rfl | rfl | rfl | rfl | rfl | rfl | rfl | rfl |
      rfl | rfl | rfl | rfl | rfl | rfl | rfl | rfl | rfl | rfl | rfl | rfl
    all_goals first
      | exact .set (.same known_of_text) _
      | exact .set (.same known_of_int) _
      | exact .set (.same known_of_texts) _
      | exact .set (hnode _) _
      | exact .set (hnodes _) _
      | exact .pure _

mutual

lemma strictly_nodeField : (v : Json) → ∀ old,
    Strictly v.known (nodeField true old v) (nodeField false old v)
  | .null, _ => .pure none
  | .bool _, _ | .num _, _ | .str _, _ | .arr _, _ => .same fun _ h => by cases h
  | .obj fs, old => by
    rw [nodeField, nodeField, Json.known, Option.map_eq_bind, Option.map_eq_bind]
    exact .set (strictly_nodeOfFields fs _) some

lemma strictly_nodeOfFields : (fs : List (String × String × Json)) → ∀ n,
    Strictly (Json.fieldsKnown fs) (nodeOfFields true n fs) (nodeOfFields false n fs)
  | [], n => .pure n
  | (key, text, v) :: rest, n => by
    rw [nodeOfFields, nodeOfFields, Json.fieldsKnown]
    exact .bind (strictly_nodeOfField (strictly_nodeField v) (strictly_nodesField v))
      fun n => strictly_nodeOfFields rest n

lemma strictly_nodesField : (v : Json) → ∀ old,
    Strictly v.known (nodesField true old v) (nodesField false old v)
  | .null, _ => .pure none
  | .bool _, _ | .num _, _ | .str _, _ | .obj _, _ => .same fun _ h => by cases h
  | .arr vs, old => by
    rw [nodesField, nodesField, Json.known, Option.map_eq_bind, Option.map_eq_bind]
    exact .set (strictly_nodeItems vs _) _

lemma strictly_nodeItems : (vs : List Json) → ∀ old,
    Strictly (Json.allKnown vs) (nodeItems true old vs) (nodeItems false old vs)
  | [], _ => .pure []
  | v :: vs, old => by
    rw [nodeItems, nodeItems, Json.allKnown]
    exact .bind (strictly_nodeField v _) fun n => .set (strictly_nodeItems vs _) _

end

/-! ### Statements in documents -/

/-- The statement that a value is read as. -/
def statement? (file : String) (v : Json) : Option Tree.Stmt :=
  (nodeField true none v).join.bind fun n => (stmtOf file n).toOption

def programRecord? : Json → Option ProgramRecord
  | .obj fs => programOfFields {} fs
  | .null => some {}
  | _ => none

/-- The program that a value is read as, without its names resolved. -/
def program? (file : String) (v : Json) : Option Tree.Program :=
  (programRecord? v).bind fun p => (Version.check p.format).toOption.bind fun _ =>
    (functionsOf file p.functions.items).toOption.map fun functions => { name := p.name, functions }

/-- A document with a place for a statement: whatever statement stands there, the document is read
as a tree with the tree of the statement in one place. -/
structure Place (file : String) where
  doc : Json → Json
  tree : Tree.Stmt → Tree.Program
  reads : ∀ v, program? file (doc v) = (statement? file v).map tree
  differ : ∀ {s0 s s'}, Tree.Stmt.Differ s0 s s' → Tree.Program.Differ (tree s0) (tree s) (tree s')

/-- A statement that assigns a value to a variable. -/
def Assigns (file : String) (span : Span) (id : Tree.Ident) (j v : Json) : Prop :=
  ∃ n target text, nodeField true none v = some (some n) ∧ n.attrs.kind = "assign" ∧
    n.attrs.place file = span ∧ n.target = some target ∧ exprOf file target = .ok (.ident id) ∧
    n.value = some (text, j, keptNode j)

/-- A statement that is an expression. -/
def Evaluates (file : String) (span : Span) (j v : Json) : Prop :=
  ∃ n : Node, n.attrs.kind = "expr" ∧ n.attrs.place file = span ∧
    nodeField true none v = (nodeField true none j).map fun x => some { n with x }

lemma Place.load_eq_ok_iff (K : Place file) (h : Json.readFirst? text = some (K.doc v, rest)) :
    load text file = .ok q ↔ ∃ s, statement? file v = some s ∧ (K.tree s).resolve = .ok q := by
  have hread : readProgram? text = programRecord? (K.doc v) := by
    rw [readProgram?, h]
    cases K.doc v <;> rfl
  have hprogram : load text file = .ok q ↔
      ∃ p, program? file (K.doc v) = some p ∧ p.resolve = .ok q := by
    rw [load, program?, ← hread]
    cases readProgram? text with
    | none => simp
    | some p =>
      cases hv : Version.check p.format <;> cases hf : functionsOf file p.functions.items <;>
        simp [hv, hf, bind, Except.bind, Except.toOption, Except.mapError]
  simp [hprogram, K.reads]

lemma stmtOf_assign {n : Node} (h : n.attrs.kind = "assign") : stmtOf file n = do
    let target ← partOf file n.target
    let value ← keptExpr file n.value
    return .assign (n.attrs.place file) target value := by
  obtain ⟨attrs, _, _, _, _, _, _, _, ⟨_, _⟩, _, ⟨_, _⟩⟩ := n
  rw [stmtOf, show attrs.kind = _ from h]
  rfl

lemma stmtOf_expr {n : Node} (h : n.attrs.kind = "expr") : stmtOf file n = do
    let x ← partOf file n.x
    return .expr (n.attrs.place file) x := by
  obtain ⟨attrs, _, _, _, _, _, _, _, ⟨_, _⟩, _, ⟨_, _⟩⟩ := n
  rw [stmtOf, show attrs.kind = _ from h]
  rfl

lemma Assigns.statement_eq_some_iff {id} (h : Assigns file span id j v) :
    statement? file v = some s ↔
      ∃ n e, keptNode j = some n ∧ exprOf file n = .ok e ∧ s = .assign span (.ident id) e := by
  obtain ⟨n, t, text, hv, hkind, rfl, htarget, ht, hvalue⟩ := h
  rw [statement?, hv]
  simp only [Option.join_some, Option.bind_some, stmtOf_assign hkind, htarget, hvalue, partOf, ht]
  cases keptNode j with
  | none => simp [keptExpr, bind, Except.bind, Except.toOption]
  | some m =>
    cases he : exprOf file m <;>
      simp [keptExpr, he, bind, Except.bind, Except.toOption, pure, Except.pure, eq_comm]

lemma Evaluates.statement_eq_some_iff {fs} (h : Evaluates file span (.obj fs) v) :
    statement? file v = some s ↔
      ∃ n e, nodeOfFields true {} fs = some n ∧ exprOf file n = .ok e ∧ s = .expr span e := by
  obtain ⟨n, hkind, rfl, hv⟩ := h
  rw [statement?, hv, nodeField, Option.getD_none]
  cases nodeOfFields true {} fs with
  | none => simp
  | some x =>
    have hstmt : stmtOf file { n with x := some x } = _ := stmtOf_expr hkind
    cases he : exprOf file x <;>
      simp [hstmt, partOf, he, bind, Except.bind, Except.toOption, pure, Except.pure, eq_comm]

/-- Expressions are read alike wherever they stand. Let a document be accepted with an assignment
to a variable in some place. Then it is accepted with the expression statement of an object there
just if it is accepted with an assignment of the object to the variable, and nodes have all fields
in the object, down to the values that are kept. If it is accepted with both, the trees differ in
this place only, where one evaluates what the other one assigns. -/
theorem values_load_alike {file : String} (K : Place file) {span : Span} {id : Tree.Ident}
    {j0 v0 v v' : Json} {fs : List (String × String × Json)} {text0 text text' : String}
    {rest0 rest rest' : List Char} {q0 : Tree.Program}
    (h0 : Assigns file span id j0 v0) (h : Assigns file span id (.obj fs) v)
    (h' : Evaluates file span (.obj fs) v')
    (hread0 : Json.readFirst? text0 = some (K.doc v0, rest0))
    (hread : Json.readFirst? text = some (K.doc v, rest))
    (hread' : Json.readFirst? text' = some (K.doc v', rest'))
    (hload : load text0 file = .ok q0) :
    ((∃ q', load text' file = .ok q') ↔ (Json.obj fs).known = true ∧ ∃ q, load text file = .ok q) ∧
    ∀ q q', load text file = .ok q → load text' file = .ok q' → Tree.Program.Differ q0 q q' := by
  obtain ⟨s0, hs0, hq0⟩ := (K.load_eq_ok_iff hread0).1 hload
  obtain ⟨n0, e0, -, -, rfl⟩ := h0.statement_eq_some_iff.1 hs0
  have hresolve := fun e => (K.differ (.here span id e0 e)).resolve hq0
  simp only [K.load_eq_ok_iff hread, K.load_eq_ok_iff hread', h.statement_eq_some_iff,
    h'.statement_eq_some_iff, strictly_nodeOfFields fs {} _, keptNode, Json.known]
  constructor
  · constructor
    · rintro ⟨q', _, ⟨n, e, ⟨hk, hn⟩, he, rfl⟩, hq'⟩
      obtain ⟨q, hq⟩ := (hresolve e).1.2 ⟨q', hq'⟩
      exact ⟨hk, q, _, ⟨n, e, hn, he, rfl⟩, hq⟩
    · rintro ⟨hk, q, _, ⟨n, e, hn, he, rfl⟩, hq⟩
      obtain ⟨q', hq'⟩ := (hresolve e).1.1 ⟨q, hq⟩
      exact ⟨q', _, ⟨n, e, ⟨hk, hn⟩, he, rfl⟩, hq'⟩
  · rintro q q' ⟨_, ⟨n, e, hn, he, rfl⟩, hq⟩ ⟨_, ⟨n', e', ⟨-, hn'⟩, he', rfl⟩, hq'⟩
    obtain rfl := Option.some.inj (hn.symm.trans hn')
    obtain rfl := Except.ok.inj (he.symm.trans he')
    exact (hresolve e).2 hq hq'

/-! ### Deciding what a text is read as -/

mutual

def Json.same : Json → Json → Bool
  | .null, .null => true
  | .bool a, .bool b => a == b
  | .num a, .num b | .str a, .str b => a == b
  | .arr vs, .arr ws => Json.sameAll vs ws
  | .obj fs, .obj gs => Json.sameFields fs gs
  | _, _ => false

def Json.sameAll : List Json → List Json → Bool
  | [], [] => true
  | v :: vs, w :: ws => v.same w && Json.sameAll vs ws
  | _, _ => false

def Json.sameFields :
    List (String × String × Json) → List (String × String × Json) → Bool
  | [], [] => true
  | (k, t, v) :: fs, (l, u, w) :: gs => k == l && t == u && v.same w && Json.sameFields fs gs
  | _, _ => false

end

lemma Json.eq_of_same (v w : Json) : v.same w = true → v = w := by
  refine @Json.same.induct (fun v w => v.same w = true → v = w)
    (fun fs gs => Json.sameFields fs gs = true → fs = gs)
    (fun vs ws => Json.sameAll vs ws = true → vs = ws)
    ?_ ?_ ?_ ?_ ?_ ?_ ?_ ?_ ?_ ?_ ?_ ?_ ?_ v w <;>
    simp +contextual [Json.same, Json.sameAll, Json.sameFields] <;> tauto

/-- What a text is read as can be found by computing. -/
lemma exists_read (h : (Json.readFirst? text).any (·.1.same v) = true) :
    ∃ rest, Json.readFirst? text = some (v, rest) := by
  obtain ⟨⟨w, rest⟩, hread, hsame⟩ := (Option.any_eq_true _ _).1 h
  obtain rfl := Json.eq_of_same w v hsame
  exact ⟨rest, hread⟩

/-- A document with a function that declares a variable, and the text of one more statement. -/
def declaring (stmt : String) : String :=
  "\x7b\"format\":\"1.0.0\",\"functions\":[\x7b\"name\":\"f\",\"body\":[" ++
    "\x7b\"kind\":\"var\",\"name\":\"x\",\"type\":\"int\"\x7d," ++ stmt ++ "]\x7d]\x7d"

def assigning (value : String) : String :=
  "\x7b\"kind\":\"assign\",\"target\":\x7b\"kind\":\"ident\",\"name\":\"x\"\x7d,\"value\":" ++
    value ++ "\x7d"

def evaluating (value : String) : String :=
  "\x7b\"kind\":\"expr\",\"x\":" ++ value ++ "\x7d"

def declaringJson (v : Json) : Json :=
  .obj [("format", "", .str "1.0.0"), ("functions", "", .arr [.obj [("name", "", .str "f"),
    ("body", "", .arr [.obj [("kind", "", .str "var"), ("name", "", .str "x"),
      ("type", "", .str "int")], v])]])]

def declared : Place "" where
  doc := declaringJson
  tree s := { name := "", functions := [{ name := "f", body := some { stmts := [
    .var {} "x" (some .int) none, s] } }] }
  reads v := by
    have hrecord : programRecord? (declaringJson v) = (nodeField true none v).map fun n =>
        { format := "1.0.0", functions := { items := [some { name := "f", body := { items := [
          some { attrs := { kind := "var", name := "x", type := "int" } }, n] } }] } } := by
      cases h : nodeField true none v <;>
        simp [declaringJson, programRecord?, programOfFields, programOfField, programFields,
          functionItems, functionField, functionOfFields, functionOfField, functionFields,
          nodesField, nodeItems, nodeField, nodeOfFields, nodeOfField, nodeFields,
          Json.fieldName?, textField, Row.places, Row.over, h]
    rw [program?, hrecord, statement?]
    cases nodeField true none v with
    | none => rfl
    | some n =>
      cases n with
      | none => rfl
      | some n =>
        cases hs : stmtOf "" n with
        | error e | ok s =>
          simp [functionsOf, functionOf, stmtsOf, hs]
          rfl
  differ h := .mk { name := "" } (.head { name := "f", body := none } {} (.tail (.head h)))

theorem values_load_alike_declared : ∃ q q',
    load (declaring (assigning "\x7b\"kind\":\"int\",\"value\":1\x7d")) = .ok q ∧
    load (declaring (evaluating "\x7b\"kind\":\"int\",\"value\":1\x7d")) = .ok q' ∧
    Tree.Program.Differ q q q' := by
  let one := "\x7b\"kind\":\"int\",\"value\":1\x7d"
  let j : Json := .obj [("kind", "", .str "int"), ("value", "1", .num "1")]
  let v : Json := .obj [("kind", "", .str "assign"), ("target", "", .obj [
    ("kind", "", .str "ident"), ("name", "", .str "x")]), ("value", one, j)]
  let v' : Json := .obj [("kind", "", .str "expr"), ("x", "", j)]
  have hrun : (load (declaring (assigning one))).toOption.map (fun _ => ()) = some () := by
    decide +kernel
  obtain ⟨q, hq, -⟩ := Except.map_eq_some.1 hrun
  obtain ⟨rest, hread⟩ : ∃ rest, Json.readFirst? (declaring (assigning one)) =
    some (declared.doc v, rest) := exists_read (by decide +kernel)
  obtain ⟨rest', hread'⟩ : ∃ rest, Json.readFirst? (declaring (evaluating one)) =
    some (declared.doc v', rest) := exists_read (by decide +kernel)
  have h : Assigns "" {} { span := {}, name := "x" } j v :=
    ⟨_, _, one, rfl, rfl, rfl, rfl, rfl, rfl⟩
  have h' : Evaluates "" {} j v' := ⟨{ attrs := { kind := "expr" } }, rfl, rfl, rfl⟩
  obtain ⟨hiff, hdiffer⟩ := values_load_alike declared h h h' hread hread hread' hq
  obtain ⟨q', hq'⟩ := hiff.2 ⟨rfl, q, hq⟩
  exact ⟨q, q', hq, hq', hdiffer q q' hq hq'⟩

/-- A field that nodes do not have is accepted in an assigned value, and refused elsewhere. -/
theorem unknown_field_kept :
    (load (declaring (assigning "\x7b\"kind\":\"int\",\"value\":1,\"z\":0\x7d"))).toOption.isSome ∧
    load (declaring (evaluating "\x7b\"kind\":\"int\",\"value\":1,\"z\":0\x7d")) =
      .error (.reason .malformedProgram) := by
  refine ⟨by decide +kernel, ?_⟩
  have hread : readProgram?
      (declaring (evaluating "\x7b\"kind\":\"int\",\"value\":1,\"z\":0\x7d")) = none :=
    Option.isNone_iff_eq_none.1 (by decide +kernel)
  rw [load, hread]

end TreeMachine.Document
