import TreeMachine.Files
import TreeMachine.Document.Load
import TreeMachine.Proofs.Resolved

/-!
# What loading a document gives

Loading a text gives a program or an error. A program that was loaded is annotated
throughout: it has its scope, every block has a scope that holds just what the block
declares, every identifier stands for a declaration in one of the scopes around it, and
every call has the type of the first result of what it calls.

An error is a crash in one case only. The list of functions, and the list of parameters of
a function, may have an entry that is null; loading gets as far as that entry when nothing
before it is refused, and then has no record to read.
-/

open List

namespace TreeMachine.Tree

/-! ### Annotated trees -/

/-- A symbol is declared in one of these scopes. -/
def Declared (scopes : List Scope) (sym : Symbol) : Prop :=
  ∃ scope ∈ scopes, sym ∈ scope.symbols

/-- An identifier has a symbol: a variable or parameter of its name. -/
def Ident.Annotated (scopes : List Scope) (id : Ident) : Prop :=
  ∃ sym, id.symbol = some sym ∧ sym.name = id.name ∧ sym.isCallable = false ∧ Declared scopes sym

/-- A call has the type of the first result of what it calls. -/
def CallAnnotated (scopes : List Scope) (func : String) (type : Option Ty) : Prop :=
  ∃ sym, sym.name = func ∧ sym.isCallable = true ∧ Declared scopes sym ∧
    type = some (sym.returns.headD .void)

mutual

/-- Every identifier of an expression has a symbol and every call a type. -/
def Expr.Annotated (scopes : List Scope) : Expr → Prop
  | .int _ _ | .bool _ _ | .string _ _ => True
  | .ident id => id.Annotated scopes
  | .index _ _ array idx => array.Annotated scopes ∧ idx.Annotated scopes
  | .binary _ _ _ left right => left.Annotated scopes ∧ right.Annotated scopes
  | .unary _ _ _ x => x.Annotated scopes
  | .call _ type func args => CallAnnotated scopes func type ∧ Expr.AnnotatedAll scopes args

def Expr.AnnotatedAll (scopes : List Scope) : List Expr → Prop
  | [] => True
  | x :: xs => x.Annotated scopes ∧ Expr.AnnotatedAll scopes xs

end

/-- A scope holds the declarations of these names and nothing else. -/
def Scope.Holds (scope : Scope) (names : List String) : Prop :=
  scope.symbols.map (·.name) = names

mutual

/-- Every block of a statement has a scope inside the scopes around it, and every expression
is annotated in the scopes around it. -/
def Stmt.Annotated (scopes : List Scope) : Stmt → Prop
  | .block _ scope ss => ∃ inner, scope = some inner ∧ inner.Holds (Stmt.declaresAll ss) ∧
    Stmt.AnnotatedAll (inner :: scopes) ss
  | .var _ _ _ none => True
  | .var _ _ _ (some x) => x.Annotated scopes
  | .array _ _ _ sizes elements =>
    Expr.AnnotatedAll scopes sizes ∧ Expr.AnnotatedAll scopes elements
  | .assign _ target value => target.Annotated scopes ∧ value.Annotated scopes
  | .multi _ targets _ type func args => CallAnnotated scopes func type ∧
    Expr.AnnotatedAll scopes args ∧ ∀ id ∈ targets, id.Annotated scopes
  | .branch _ cond yes none => cond.Annotated scopes ∧ yes.Annotated scopes
  | .branch _ cond yes (some no) =>
    cond.Annotated scopes ∧ yes.Annotated scopes ∧ no.Annotated scopes
  | .loop _ cond body => cond.Annotated scopes ∧ body.Annotated scopes
  | .ret _ values => Expr.AnnotatedAll scopes values
  | .expr _ x => x.Annotated scopes
  | .missing => True

def Stmt.AnnotatedAll (scopes : List Scope) : List Stmt → Prop
  | [] => True
  | s :: ss => s.Annotated scopes ∧ Stmt.AnnotatedAll scopes ss

end

/-- A function has the scope of its parameters, and inside it the scope of its body. -/
def Function.Annotated (outer : List Scope) (f : Function) : Prop :=
  ∃ params span scope ss, f.scope = some params ∧
    f.body = some { span, scope := some scope, stmts := ss } ∧
    params.Holds (f.params.map (·.name)) ∧ scope.Holds (Stmt.declaresAll ss) ∧
    Stmt.AnnotatedAll (scope :: params :: outer) ss

/-- A program has the scope of its functions, and they are annotated inside it. -/
def Program.Annotated (p : Program) : Prop :=
  ∃ scope, p.scope = some scope ∧ scope.Holds (p.functions.map (·.name)) ∧
    ∀ f ∈ p.functions, f.Annotated [scope, Scope.outermost]

/-! ### Trees with their names bound -/

/-- Some scopes declare no name twice, and what they declare is declared in others. -/
def Within (scopes scopes' : List Scope) : Prop :=
  (∀ s ∈ scopes, s.names.Nodup) ∧ ∀ sym, Declared scopes sym → Declared scopes' sym

section

variable {scopes scopes' : List Scope}

lemma Within.cons (hs : Within scopes scopes') (h : scope.Grows scope') :
    Within (scope :: scopes) (scope' :: scopes') := by
  refine ⟨h.nodup hs.1, ?_⟩
  rintro sym ⟨s, hmem, hsym⟩
  rcases mem_cons.1 hmem with rfl | hmem
  · exact ⟨scope', by simp, h.1.subset hsym⟩
  · obtain ⟨s', hmem', hsym'⟩ := hs.2 sym ⟨s, hmem, hsym⟩
    exact ⟨s', mem_cons_of_mem _ hmem', hsym'⟩

lemma Ident.annotated_bound (hs : Within scopes scopes') {id : Ident} (h : id.Finds scopes) :
    (id.bound scopes).Annotated scopes' := by
  obtain ⟨sym, hsel, hc⟩ := h
  obtain ⟨scope, hscope, hsym, hname⟩ := hsel.mem
  rw [Ident.bound_of_selects hs.1 hsel]
  exact ⟨sym, rfl, hname, hc, hs.2 sym ⟨scope, hscope, hsym⟩⟩

lemma callAnnotated (hs : Within scopes scopes')
    (h : FindsCallee scopes func) : CallAnnotated scopes' func (some (resultType scopes func)) := by
  obtain ⟨sym, hsel, hc⟩ := h
  obtain ⟨scope, hscope, hsym, hname⟩ := hsel.mem
  refine ⟨sym, hname, hc, hs.2 sym ⟨scope, hscope, hsym⟩, ?_⟩
  rw [resultType, (lookup_eq_some_iff hs.1).2 hsel]

mutual

lemma Expr.annotated_bound (hs : Within scopes scopes') :
    (e : Expr) → e.Finds scopes → (e.bound scopes).Annotated scopes'
  | .int _ _, _ | .bool _ _, _ | .string _ _, _ => trivial
  | .ident _, h => Ident.annotated_bound hs h
  | .index _ _ array idx, h =>
    ⟨Expr.annotated_bound hs array h.1, Expr.annotated_bound hs idx h.2⟩
  | .binary _ _ _ left right, h =>
    ⟨Expr.annotated_bound hs left h.1, Expr.annotated_bound hs right h.2⟩
  | .unary _ _ _ x, h => by
    rw [Expr.bound, Expr.Annotated]
    exact Expr.annotated_bound hs x h
  | .call _ _ _ args, h => ⟨callAnnotated hs h.1, Expr.annotatedAll_bound hs args h.2⟩

lemma Expr.annotatedAll_bound (hs : Within scopes scopes') :
    (es : List Expr) → Expr.FindsAll scopes es → Expr.AnnotatedAll scopes' (Expr.boundAll scopes es)
  | [], _ => trivial
  | e :: es, h => ⟨Expr.annotated_bound hs e h.1, Expr.annotatedAll_bound hs es h.2⟩

end

lemma Stmt.declares_bound {inner outer n} :
    (s : Stmt) → (s.bound inner outer n).declares = s.declares
  | .block .. | .var _ _ _ none | .var _ _ _ (some _) => rfl
  | .array .. | .assign .. | .multi .. => rfl
  | .ret .. | .expr .. | .missing => rfl
  | .branch _ _ yes none => yes.declares_bound
  | .branch _ _ yes (some no) => congrArg₂ _ yes.declares_bound no.declares_bound
  | .loop _ _ body => body.declares_bound

lemma Stmt.declaresAll_bound (ss : List Stmt) {inner outer n} :
    Stmt.declaresAll (Stmt.boundAll inner outer n ss) = Stmt.declaresAll ss := by
  induction ss generalizing inner n with
  | nil => rfl
  | cons s ss ih =>
    rw [Stmt.boundAll, Stmt.declaresAll, flatMap_cons, s.declares_bound]
    exact congrArg (s.declares ++ ·) ih

lemma holds_symbolsAll (ss : List Stmt) : Scope.Holds { symbols := Stmt.symbolsAll n ss }
      (Stmt.declaresAll (Stmt.boundAll {} outer n ss)) :=
  (Stmt.names_symbolsAll n ss).trans (Stmt.declaresAll_bound ss).symm

mutual

lemma Stmt.annotated_bound {inner outer n final outer'} : (s : Stmt) →
    Within outer outer' → (inner.extend (s.symbols n)).Grows final → s.Finds inner outer n →
    s.Distinct → (s.bound inner outer n).Annotated (final :: outer')
  | .block _ _ ss, hw, hg, hf, hd =>
    ⟨_, rfl, holds_symbolsAll ss, Stmts.annotated_bound ss (hw.cons hg.before)
        ⟨prefix_refl _, by simpa [Scope.names] using hd.1⟩ hf hd.2⟩
  | .var _ _ _ none, _, _, _, _ => trivial
  | .var _ _ _ (some x), hw, hg, hf, _ =>
    x.annotated_bound (hw.cons hg.before) hf
  | .array _ _ _ sizes elements, hw, hg, hf, _ =>
    ⟨Expr.annotatedAll_bound (hw.cons hg.before) sizes hf.1,
      Expr.annotatedAll_bound (hw.cons hg.before) elements hf.2⟩
  | .assign _ target value, hw, hg, hf, _ =>
    ⟨target.annotated_bound (hw.cons hg.before) hf.1,
      value.annotated_bound (hw.cons hg.before) hf.2⟩
  | .multi _ targets _ _ _ args, hw, hg, hf, _ => by
    have hs := hw.cons hg.before
    exact ⟨callAnnotated hs hf.1, Expr.annotatedAll_bound hs args hf.2.1,
      forall_mem_map.2 fun id hid => id.annotated_bound hs (hf.2.2 id hid)⟩
  | .branch _ cond yes none, hw, hg, hf, hd =>
    ⟨cond.annotated_bound (hw.cons hg.before) hf.1, yes.annotated_bound hw hg hf.2 hd⟩
  | .branch _ cond yes (some no), hw, hg, hf, hd => by
    rw [Stmt.symbols, ← extend_append] at hg
    exact ⟨cond.annotated_bound (hw.cons hg.before.before) hf.1,
      yes.annotated_bound hw hg.before hf.2.1 hd.1, no.annotated_bound hw hg hf.2.2 hd.2⟩
  | .loop _ cond body, hw, hg, hf, hd =>
    ⟨cond.annotated_bound (hw.cons hg.before) hf.1, body.annotated_bound hw hg hf.2 hd⟩
  | .ret _ values, hw, hg, hf, _ =>
    Expr.annotatedAll_bound (hw.cons hg.before) values hf
  | .expr _ x, hw, hg, hf, _ =>
    x.annotated_bound (hw.cons hg.before) hf
  | .missing, _, _, _, _ => trivial

lemma Stmts.annotated_bound {inner outer n final outer'} : (ss : List Stmt) →
    Within outer outer' → (inner.extend (Stmt.symbolsAll n ss)).Grows final →
    Stmt.FindsAll inner outer n ss → Stmt.DistinctAll ss →
    Stmt.AnnotatedAll (final :: outer') (Stmt.boundAll inner outer n ss)
  | [], _, _, _, _ => trivial
  | s :: ss, hw, hg, hf, hd => by
    rw [Stmt.symbolsAll, ← extend_append] at hg
    exact ⟨s.annotated_bound hw hg.before hf.1 hd.1, Stmts.annotated_bound ss hw hg hf.2 hd.2⟩

end

lemma Function.annotated_bound (ho : ∀ s ∈ outer, s.names.Nodup) {f : Function}
    (hf : f.Finds outer n) (hd : f.Distinct) : (f.bound outer n).Annotated outer := by
  obtain ⟨hp, hss, hd⟩ := hd
  have hparams : (f.parameters n).names.Nodup := by
    simpa [Scope.names, Function.parameters] using hp
  exact ⟨_, _, _, _, rfl, rfl, names_paramSymbols n f.params, holds_symbolsAll f.stmts,
    Stmts.annotated_bound f.stmts ⟨forall_mem_cons.2 ⟨hparams, ho⟩, fun _ h => h⟩
      ⟨prefix_refl _, by simpa [Scope.names] using hss⟩ hf hd⟩

lemma Functions.annotated_bound (ho : ∀ s ∈ outer, s.names.Nodup)
    (hf : Function.FindsAll outer n fs) (hd : ∀ f ∈ fs, f.Distinct) :
    ∀ f ∈ Function.boundAll outer n fs, f.Annotated outer := by
  induction fs generalizing n with
  | nil => simp [Function.boundAll]
  | cons f fs ih =>
    obtain ⟨hdf, hdfs⟩ := forall_mem_cons.1 hd
    rw [Function.boundAll]
    exact forall_mem_cons.2 ⟨f.annotated_bound ho hf.1 hdf, ih hf.2 hdfs⟩

/-- A program that was resolved is annotated. -/
lemma annotated_of_resolve {p q : Program} (h : p.resolve = .ok q) : q.Annotated := by
  obtain ⟨⟨hd, hf⟩, rfl⟩ := ((makes_program p).eq_ok_iff q).1 h
  exact ⟨_, rfl, (names_functionSymbols _ p.functions).trans p.names_bound.symm,
    Functions.annotated_bound (p.nodup_globals hd.1) hf hd.2⟩

end

/-! ### Defined trees -/

mutual

/-- The operators of an expression have a meaning. -/
def Expr.Defined : Expr → Prop
  | .int _ _ => True
  | .bool _ _ => True
  | .string _ _ => True
  | .ident _ => True
  | .index _ _ array idx => array.Defined ∧ idx.Defined
  | .binary _ _ op left right => (∀ n, op ≠ .undefined n) ∧ left.Defined ∧ right.Defined
  | .unary _ _ op x => (∀ n, op ≠ .undefined n) ∧ x.Defined
  | .call _ _ _ args => Expr.DefinedAll args

def Expr.DefinedAll : List Expr → Prop
  | [] => True
  | x :: xs => x.Defined ∧ Expr.DefinedAll xs

end

mutual

/-- A statement is there, and the operators in it have a meaning. -/
def Stmt.Defined : Stmt → Prop
  | .block _ _ ss => Stmt.DefinedAll ss
  | .var _ _ _ none => True
  | .var _ _ _ (some x) => x.Defined
  | .array _ _ _ sizes elements => Expr.DefinedAll sizes ∧ Expr.DefinedAll elements
  | .assign _ target value => target.Defined ∧ value.Defined
  | .multi _ _ _ _ _ args => Expr.DefinedAll args
  | .branch _ cond yes none => cond.Defined ∧ yes.Defined
  | .branch _ cond yes (some no) => cond.Defined ∧ yes.Defined ∧ no.Defined
  | .loop _ cond body => cond.Defined ∧ body.Defined
  | .ret _ values => Expr.DefinedAll values
  | .expr _ x => x.Defined
  | .missing => False

def Stmt.DefinedAll : List Stmt → Prop
  | [] => True
  | s :: ss => s.Defined ∧ Stmt.DefinedAll ss

end

lemma BinaryOp.ne_undefined_of_parse {s : String} {op : BinaryOp} (h : BinaryOp.parse s = some op)
    (n : Nat) : op ≠ .undefined n := by
  obtain ⟨⟨op', t⟩, hf, rfl⟩ := Option.map_eq_some_iff.1 h
  have hall : ∀ e ∈ BinaryOp.table, e.1 ≠ .undefined n := by simp [BinaryOp.table]
  exact hall _ (List.mem_of_find?_eq_some hf)

lemma UnaryOp.ne_undefined_of_parse {s : String} {op : UnaryOp} (h : UnaryOp.parse s = some op)
    (n : Nat) : op ≠ .undefined n := by
  obtain ⟨⟨op', t⟩, hf, rfl⟩ := Option.map_eq_some_iff.1 h
  have hall : ∀ e ∈ UnaryOp.table, e.1 ≠ .undefined n := by simp [UnaryOp.table]
  exact hall _ (List.mem_of_find?_eq_some hf)

end TreeMachine.Tree

/-! ### Errors that are no crashes -/

namespace TreeMachine

/-- The crash that a computation ended with, if it did. -/
def crashed? {α : Type} : Except Error α → Option Crash
  | .ok _ => none
  | .error e => e.crash?

def NoCrash {α : Type} (r : Except Error α) : Prop :=
  crashed? r = none

namespace NoCrash

variable {α : Type}

lemma ok (a : α) : NoCrash (.ok a) :=
  rfl

lemma error (h : e.crash? = none) : NoCrash (.error e : Except Error α) :=
  h

lemma bind (h : NoCrash r) (hf : ∀ a, NoCrash (f a)) : NoCrash (r >>= f) := by
  cases r with
  | error e => exact error h
  | ok a => exact hf a

lemma wrap (h : NoCrash r) : NoCrash (Error.wrap context r) := by
  cases r with
  | error e => exact error h
  | ok a => exact ok a

lemma mapM (hf : ∀ a, NoCrash (f a)) (as : List α) : NoCrash (as.mapM f) := by
  induction as with
  | nil =>
    rw [mapM_nil]
    exact ok []
  | cons a as ih =>
    rw [mapM_cons]
    exact (hf a).bind fun b => ih.bind fun bs => ok _

end NoCrash

lemma NoCrash.reason {α : Type} (r : Except Reason α) : NoCrash (r.mapError Error.reason) := by
  cases r with
  | error why => exact .error rfl
  | ok a => exact .ok a

lemma Tree.noCrash_resolve (p : Program) : NoCrash p.resolve := by
  cases h : p.resolve with
  | ok q => exact .ok q
  | error e => exact .error ((makes_program p).noCrash e h)

end TreeMachine

namespace TreeMachine.Document

lemma noCrash_unsupported {α : Type} (what : String) (span : Span) :
    NoCrash (unsupported what span : Except Error α) :=
  .error rfl

lemma noCrash_typeOf (s : String) (span : Span) : NoCrash (typeOf s span) := by
  unfold typeOf
  split
  · exact .ok _
  · exact noCrash_unsupported _ span

/-! ### Trees of documents are defined -/

/-- A computation does not crash, and what it gives has a property. -/
def Gives {α : Type} (P : α → Prop) (r : Except Error α) : Prop :=
  NoCrash r ∧ ∀ a, r = .ok a → P a

namespace Gives

variable {α β : Type} {P : α → Prop} {Q : β → Prop}

lemma ok (h : P a) : Gives P (.ok a) :=
  ⟨rfl, fun _ he => Except.ok.inj he ▸ h⟩

lemma error (h : e.crash? = none) : Gives P (.error e) :=
  ⟨h, fun _ he => by cases he⟩

lemma bind (h : Gives P r) (hf : ∀ a, P a → Gives Q (f a)) : Gives Q (r >>= f) := by
  cases r with
  | error e => exact error h.1
  | ok a => exact hf a (h.2 a rfl)

lemma unsupported (what : String) (span : Span) : Gives P (Document.unsupported what span) :=
  error rfl

end Gives

lemma gives_typeOf (s : String) (span : Span) : Gives (fun _ => True) (typeOf s span) :=
  ⟨noCrash_typeOf s span, fun _ _ => trivial⟩

open TreeMachine.Tree

mutual

lemma gives_exprOf (file : String) : (n : Node) → Gives Expr.Defined (exprOf file n)
  | { attrs, value, x, left, right, array, index, args := ⟨args, _⟩, .. } => by
    rw [exprOf]
    split
    · split
      · exact .ok trivial
      · exact .unsupported _ _
    · split
      · exact .ok trivial
      · exact .unsupported _ _
    · split
      · exact .ok trivial
      · exact .unsupported _ _
    · exact .ok trivial
    · exact .bind (gives_partOf file array) fun _ ha =>
        .bind (gives_partOf file index) fun _ hi => .ok ⟨ha, hi⟩
    · split
      · exact .error rfl
      · next op hop =>
        exact .bind (gives_partOf file left) fun _ hl => .bind (gives_partOf file right)
          fun _ hr => .ok ⟨BinaryOp.ne_undefined_of_parse hop, hl, hr⟩
    · split
      · exact .error rfl
      · next op hop =>
        exact .bind (gives_partOf file x) fun _ hx => .ok ⟨UnaryOp.ne_undefined_of_parse hop, hx⟩
    · exact .bind (gives_exprsOf file args) fun _ hs => .ok (show Expr.Defined (.call ..) from hs)
    · exact .unsupported _ _

lemma gives_partOf (file : String) : (n : Option Node) → Gives Expr.Defined (partOf file n)
  | none => .unsupported _ _
  | some n => by
    rw [partOf]
    exact gives_exprOf file n

lemma gives_exprsOf (file : String) :
    (ns : List (Option Node)) → Gives Expr.DefinedAll (exprsOf file ns)
  | [] => by
    rw [exprsOf]
    exact .ok trivial
  | n :: ns => by
    rw [exprsOf]
    exact .bind (gives_partOf file n) fun _ hx =>
      .bind (gives_exprsOf file ns) fun _ hs => .ok ⟨hx, hs⟩

end

lemma gives_keptExpr (file : String) (v : Option (String × Json × Option Node)) :
    Gives Expr.Defined (keptExpr file v) := by
  rcases v with _ | ⟨_, _, _ | n⟩
  · exact .unsupported _ _
  · exact .error rfl
  · exact gives_exprOf file n

mutual

lemma gives_stmtOf (file : String) : (n : Node) → Gives Stmt.Defined (stmtOf file n)
  | { attrs, value, start, elements, size, target, call, cond, yes := ⟨yes, _⟩, no,
      body := ⟨body, _⟩, values, x, .. } => by
    rw [stmtOf]
    split
    · refine .bind (gives_typeOf _ _) fun type _ => ?_
      split
      · exact .ok trivial
      · exact .bind (gives_exprOf file _) fun _ hv => .ok (show Stmt.Defined (.var ..) from hv)
    · refine .bind (gives_typeOf _ _) fun type _ => ?_
      split
      · exact .unsupported _ _
      · exact .bind (gives_exprsOf file _) fun _ hz =>
          .bind (gives_exprsOf file _) fun _ he => .ok ⟨hz, he⟩
    · exact .bind (gives_partOf file target) fun _ ht =>
        .bind (gives_keptExpr file value) fun _ hv => .ok ⟨ht, hv⟩
    · refine .bind (gives_partOf file call) fun c hc => ?_
      split
      · exact .ok hc
      · exact .unsupported _ _
    · refine .bind (gives_partOf file cond) fun c hc =>
        .bind (gives_stmtsOf file yes) fun ys hy => ?_
      split
      · exact .ok ⟨hc, hy⟩
      · exact .bind (gives_stmtsOf file _) fun _ hn => .ok ⟨hc, hy, hn⟩
    · exact .bind (gives_partOf file cond) fun _ hc =>
        .bind (gives_stmtsOf file body) fun _ hs => .ok ⟨hc, hs⟩
    · exact .bind (gives_exprsOf file _) fun _ hv => .ok (show Stmt.Defined (.ret ..) from hv)
    · exact .bind (gives_partOf file x) fun _ hv => .ok (show Stmt.Defined (.expr ..) from hv)
    · exact .bind (gives_stmtsOf file body) fun _ hs =>
        .ok (show Stmt.Defined (.block ..) from hs)
    · exact .unsupported _ _

lemma gives_stmtsOf (file : String) :
    (ns : List (Option Node)) → Gives Stmt.DefinedAll (stmtsOf file ns)
  | [] => by
    rw [stmtsOf]
    exact .ok trivial
  | none :: _ => by
    rw [stmtsOf]
    exact .unsupported _ _
  | some n :: ns => by
    rw [stmtsOf]
    exact .bind (gives_stmtOf file n) fun _ hs =>
      .bind (gives_stmtsOf file ns) fun _ hss => .ok ⟨hs, hss⟩

end

/-! ### Records that are missing -/

/-- Going through a list whose entries may be missing reaches one where it stops; the ones
before it are there and good. -/
def Reaches {α : Type} (good : α → Prop) (stop : Option α → Prop) (items : List (Option α)) :
    Prop :=
  ∃ (xs : List α) (r : Option α) (rest : List (Option α)), items = xs.map some ++ r :: rest ∧
    (∀ x ∈ xs, good x) ∧ stop r

/-- The record of a parameter is missing, and those before it have types. -/
def FunctionRecord.Lacks (f : FunctionRecord) : Prop :=
  Reaches (fun p => (Tree.Ty.parse p.type).isSome) (· = none) f.params.items

/-- The record of a function or of one of its parameters is missing, and the functions before
it can be made. -/
def ProgramRecord.Lacks (file : String) (p : ProgramRecord) : Prop :=
  Reaches (fun f => ∃ t, functionOf file f = .ok t) (fun r => ∀ f, r = some f → f.Lacks)
    p.functions.items

lemma reaches_nil {α : Type} {good : α → Prop} {stop : Option α → Prop} :
    ¬Reaches good stop [] := by
  rintro ⟨xs, r, rest, h, -⟩
  simp at h

lemma reaches_cons {α : Type} {good : α → Prop} {stop : Option α → Prop} {r : Option α}
    {rest : List (Option α)} :
    Reaches good stop (r :: rest) ↔ stop r ∨ ∃ x, r = some x ∧ good x ∧ Reaches good stop rest := by
  constructor
  · rintro ⟨xs, r', rest', h, hgood, hstop⟩
    cases xs with
    | nil =>
      obtain ⟨rfl, rfl⟩ := List.cons.inj h
      exact .inl hstop
    | cons x xs =>
      obtain ⟨rfl, rfl⟩ := List.cons.inj h
      obtain ⟨hx, hxs⟩ := forall_mem_cons.1 hgood
      exact .inr ⟨x, rfl, hx, xs, r', rest', rfl, hxs, hstop⟩
  · rintro (hstop | ⟨x, rfl, hx, xs, r', rest', rfl, hxs, hstop⟩)
    · exact ⟨[], r, rest, rfl, by simp, hstop⟩
    · exact ⟨x :: xs, r', rest', rfl, forall_mem_cons.2 ⟨hx, hxs⟩, hstop⟩

/-- A computation ends with a crash just when something holds, and then for want of a
record. -/
structure CrashesWhen {α : Type} (lacks : Prop) (r : Except Error α) : Prop where
  only : ∀ e, r = .error e → e.crash? = none ∨ e = .crash .missingPart
  iff : r = .error (.crash .missingPart) ↔ lacks

namespace CrashesWhen

variable {α : Type} {lacks lacks' : Prop}

lemma missing (h : lacks) : CrashesWhen lacks (.error (.crash .missingPart) : Except Error α) :=
  ⟨fun _ he => .inr (Except.error.inj he).symm, fun _ => h, fun _ => rfl⟩

lemma of_noCrash (h : NoCrash r) (hl : ¬lacks) : CrashesWhen lacks r := by
  cases r with
  | ok a => exact ⟨by simp, by simp, fun hl' => absurd hl' hl⟩
  | error e =>
    refine ⟨fun e' he => .inl (Except.error.inj he ▸ h), ?_, fun hl' => absurd hl' hl⟩
    rintro ⟨⟩
    cases h

lemma bind (h : CrashesWhen lacks r) (hf : ∀ a, r = .ok a → CrashesWhen lacks' (f a)) :
    CrashesWhen (lacks ∨ (∃ a, r = .ok a) ∧ lacks') (r >>= f) := by
  cases r with
  | error e =>
    refine ⟨?_, ?_⟩
    · rintro e' ⟨⟩
      exact h.only e rfl
    · rw [← h.iff]
      constructor
      · rintro ⟨⟩
        exact .inl rfl
      · rintro (⟨⟨⟩⟩ | ⟨⟨a, ⟨⟩⟩, -⟩)
        rfl
  | ok a =>
    have hfa := hf a rfl
    refine ⟨hfa.only, hfa.iff.trans ?_⟩
    have hl : ¬lacks := fun hl => by cases h.iff.2 hl
    exact ⟨fun hl' => .inr ⟨⟨a, rfl⟩, hl'⟩, fun ho => (ho.resolve_left hl).2⟩

lemma congr (h : CrashesWhen lacks r) (hl : lacks ↔ lacks') : CrashesWhen lacks' r :=
  ⟨h.only, h.iff.trans hl⟩

lemma bind_noCrash (h : CrashesWhen lacks r) (hf : ∀ a, NoCrash (f a)) :
    CrashesWhen lacks (r >>= f) :=
  (h.bind fun a _ => of_noCrash (hf a) not_false).congr (by simp)

end CrashesWhen

lemma crashesWhen_paramsOf (span : Span) (ps : List (Option ParamRecord)) :
    CrashesWhen (Reaches (fun p => (Tree.Ty.parse p.type).isSome) (· = none) ps)
      (paramsOf span ps) := by
  induction ps with
  | nil => exact .of_noCrash (.ok []) reaches_nil
  | cons p ps ih =>
    cases p with
    | none => exact .missing (reaches_cons.2 (.inl rfl))
    | some p =>
      have htype : (∃ t, typeOf p.type span = .ok t) ↔ (Tree.Ty.parse p.type).isSome := by
        unfold typeOf
        cases Tree.Ty.parse p.type <;> simp [unsupported]
      have h := (CrashesWhen.of_noCrash (noCrash_typeOf p.type span) not_false).bind
        fun t _ => ih.bind_noCrash fun rest => .ok
          ({ span, name := p.name, type := some t } :: rest)
      refine CrashesWhen.congr h ?_
      rw [reaches_cons, htype]
      simp

lemma crashesWhen_functionOf (file : String) (f : FunctionRecord) :
    CrashesWhen f.Lacks (functionOf file f) :=
  (crashesWhen_paramsOf _ f.params.items).bind_noCrash fun _ =>
    .bind (.mapM (fun s => noCrash_typeOf s _) _) fun _ =>
      .bind (.wrap (gives_stmtsOf file _).1) fun _ => .ok _

lemma crashesWhen_functionsOf (file : String) (rs : List (Option FunctionRecord)) :
    CrashesWhen (Reaches (fun f => ∃ t, functionOf file f = .ok t)
      (fun r => ∀ f, r = some f → f.Lacks) rs) (functionsOf file rs) := by
  induction rs with
  | nil => exact .of_noCrash (.ok []) reaches_nil
  | cons r rs ih =>
    cases r with
    | none => exact .missing (reaches_cons.2 (.inl (by simp)))
    | some f =>
      have h := (crashesWhen_functionOf file f).bind fun t _ =>
        ih.bind_noCrash fun rest => .ok (t :: rest)
      refine CrashesWhen.congr h ?_
      rw [reaches_cons]
      simp

lemma crashesWhen_load (check : String → Except Reason Unit) (text file : String) :
    CrashesWhen (∃ p, readProgram? text = some p ∧ check p.format = .ok () ∧ p.Lacks file)
      (load text file check) := by
  unfold load
  cases readProgram? text with
  | none => exact .of_noCrash (.error rfl) (by simp)
  | some p =>
    have h := (CrashesWhen.of_noCrash (.reason (check p.format)) not_false).bind fun _ _ =>
      (crashesWhen_functionsOf file p.functions.items).bind_noCrash fun fs =>
        Tree.noCrash_resolve { name := p.name, functions := fs }
    have hunit : (∃ u, (check p.format).mapError Error.reason = .ok u) ↔
        check p.format = .ok () := by
      cases check p.format <;> simp [Except.mapError]
    refine CrashesWhen.congr h ?_
    rw [hunit]
    simp [ProgramRecord.Lacks]

lemma annotated_of_load (h : load text file check = .ok q) : q.Annotated := by
  unfold load at h
  split at h
  · cases h
  · obtain ⟨_, -, h⟩ := Except.bind_eq_ok h
    obtain ⟨fs, -, h⟩ := Except.bind_eq_ok h
    exact Tree.annotated_of_resolve h

/-- Loading the content of a file, be it text or not, and whichever versions are accepted, gives a
program that is annotated throughout, or an error that is no crash, or it crashes for want of a
record; and it crashes just when it reaches a record that is missing. -/
theorem load_outcome (check : String → Except Reason Unit) (content : Content) (file : String) :
    ((∃ q, load content.toText file check = .ok q ∧ q.Annotated) ∨
      (∃ e, load content.toText file check = .error e ∧ e.crash? = none) ∨
      load content.toText file check = .error (.crash .missingPart)) ∧
    (load content.toText file check = .error (.crash .missingPart) ↔
      ∃ p, readProgram? content.toText = some p ∧ check p.format = .ok () ∧ p.Lacks file) := by
  have h := crashesWhen_load check content.toText file
  refine ⟨?_, h.iff⟩
  cases hl : load content.toText file check with
  | ok q => exact .inl ⟨q, rfl, annotated_of_load hl⟩
  | error e =>
    rcases h.only e hl with he | rfl
    · exact .inr (.inl ⟨e, rfl, he⟩)
    · exact .inr (.inr rfl)

/-- Not every text gives a program or an error: a function that is null is a crash. -/
theorem load_missing_function :
    crashed? (load "\x7b\"format\": \"1.0.0\", \"name\": \"p\", \"functions\": [null]\x7d") =
      some .missingPart := by
  decide +kernel

end TreeMachine.Document
