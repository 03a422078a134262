import TreeMachine.Proofs.Inversion
import TreeMachine.Tree.Resolve

/-!
# Lexical scoping

What resolving a tree comes to, without its errors. A name stands for a declaration in the
innermost scope around it that has one by then: the scope of a block grows with every
declaration, and an expression sees it as it is when the expression is reached.
-/

open List

namespace TreeMachine.Tree

/-! ### Computations with a known result -/

/-- A computation succeeds exactly if something holds, and then with a known result. Its errors
are no crashes. -/
structure Makes {α : Type} (m : Except Error α) (ok : Prop) (a : α) : Prop where
  eq_ok_iff : ∀ r, m = .ok r ↔ ok ∧ r = a
  noCrash : ∀ e, m = .error e → e.crash? = none

namespace Makes

variable {α β : Type} {m : Except Error α} {f : α → Except Error β} {e : Error} {ok ok' : Prop}
  {a : α} {b : β} {n n' : Nat}

lemma pure (a : α) : Makes (.ok a) True a :=
  ⟨fun _ => ⟨fun h => ⟨trivial, (Except.ok.inj h).symm⟩, fun h => h.2 ▸ rfl⟩, nofun⟩

lemma fails (he : e.crash? = none) (h : ¬ok) : Makes (.error e) ok a :=
  ⟨fun _ => ⟨nofun, fun hr => absurd hr.1 h⟩, fun _ h => Except.error.inj h ▸ he⟩

lemma congr (h : Makes m ok a) (hok : ok ↔ ok') : Makes m ok' a :=
  ⟨fun r => (h.eq_ok_iff r).trans (and_congr_left fun _ => hok), h.noCrash⟩

lemma bind (h : Makes m ok a) (hf : ok → Makes (f a) ok' b) : Makes (m >>= f) (ok ∧ ok') b := by
  cases m with
  | error e =>
    have hok : ¬ok := fun hok => by cases (h.eq_ok_iff a).2 ⟨hok, rfl⟩
    exact .fails (h.noCrash e rfl) fun h => hok h.1
  | ok x =>
    obtain ⟨hok, rfl⟩ := (h.eq_ok_iff x).1 rfl
    exact (hf hok).congr (and_iff_right hok).symm

lemma andThen {m : Resolving α} {f : α → Resolving β} {r : β × Nat}
    (h : Makes (m n) ok (a, n')) (hf : ok → Makes (f a n') ok' r) :
    Makes ((m >>= f) n) (ok ∧ ok') r :=
  h.bind hf

lemma lift (h : Makes m ok a) : Makes ((liftM m : Resolving α) n) ok (a, n) :=
  (h.bind fun _ => pure (a, n)).congr (and_iff_left trivial)

lemma wrap (h : Makes m ok a) (context : String) : Makes (Error.wrap context m) ok a := by
  cases m with
  | error e => exact ⟨fun r => (iff_of_eq (by simp [Error.wrap])).trans (h.eq_ok_iff r),
    fun _ he => Except.error.inj he ▸ h.noCrash e rfl⟩
  | ok x => exact h

end Makes

/-! ### What names stand for -/

def Scope.names (scope : Scope) : List String :=
  scope.symbols.map (·.name)

def Scope.extend (scope : Scope) (symbols : List Symbol) : Scope where
  symbols := scope.symbols ++ symbols

@[simp] lemma Scope.names_extend (scope : Scope) (symbols : List Symbol) :
    (scope.extend symbols).names = scope.names ++ symbols.map (·.name) := by
  simp [Scope.names, Scope.extend]

/-- In scopes around a place, innermost first, a name stands for a declaration: the one in the
innermost scope that declares the name. -/
def Selects (scopes : List Scope) (name : String) (sym : Symbol) : Prop :=
  ∃ nearer scope farther, scopes = nearer ++ scope :: farther ∧ sym ∈ scope.symbols ∧
    sym.name = name ∧ ∀ s ∈ nearer, name ∉ s.names

section

variable {scope : Scope} {scopes outer : List Scope} {name : String} {sym : Symbol}

lemma Scope.find?_eq_some (h : scope.find? name = some sym) :
    sym ∈ scope.symbols ∧ sym.name = name :=
  ⟨List.mem_of_find?_eq_some h, by simpa using List.find?_some h⟩

lemma Scope.find?_eq_none : scope.find? name = none ↔ name ∉ scope.names := by
  simp [Scope.find?, Scope.names]

lemma Scope.find?_of_mem (hn : scope.names.Nodup) (h : sym ∈ scope.symbols) :
    scope.find? sym.name = some sym := by
  obtain ⟨symbols⟩ := scope
  unfold Scope.find?
  induction symbols with
  | nil => cases h
  | cons s ss ih =>
    rw [Scope.names, map_cons, nodup_cons] at hn
    rcases mem_cons.1 h with rfl | h
    · simp
    · have hne : s.name ≠ sym.name := fun heq => hn.1 (heq ▸ mem_map_of_mem h)
      simpa [hne] using ih hn.2 h

lemma Selects.mem (h : Selects scopes name sym) :
    ∃ scope ∈ scopes, sym ∈ scope.symbols ∧ sym.name = name := by
  obtain ⟨nearer, scope, farther, rfl, hsym, hname, -⟩ := h
  exact ⟨scope, by simp, hsym, hname⟩

lemma selects_cons_of_not_mem (h : name ∉ scope.names) :
    Selects (scope :: outer) name sym ↔ Selects outer name sym := by
  constructor
  · rintro ⟨nearer, s, farther, hs, hsym, hname, hnearer⟩
    cases nearer with
    | nil =>
      cases hs
      exact absurd (hname ▸ mem_map_of_mem hsym) h
    | cons t nearer =>
      cases hs
      exact ⟨nearer, s, farther, rfl, hsym, hname, fun u hu => hnearer u (.tail _ hu)⟩
  · rintro ⟨nearer, s, farther, rfl, hsym, hname, hnearer⟩
    exact ⟨scope :: nearer, s, farther, rfl, hsym, hname, forall_mem_cons.2 ⟨h, hnearer⟩⟩

lemma selects_cons_of_mem (hn : scope.names.Nodup) (h : name ∈ scope.names) :
    Selects (scope :: outer) name sym ↔ scope.find? name = some sym := by
  constructor
  · rintro ⟨nearer, s, farther, hs, hsym, rfl, hnearer⟩
    cases nearer with
    | nil =>
      cases hs
      exact Scope.find?_of_mem hn hsym
    | cons t nearer =>
      cases hs
      exact absurd h (hnearer _ mem_cons_self)
  · intro hf
    obtain ⟨hsym, hname⟩ := Scope.find?_eq_some hf
    exact ⟨[], scope, outer, rfl, hsym, hname, by simp⟩

lemma lookup_eq_some_iff (hn : ∀ s ∈ scopes, s.names.Nodup) :
    Scope.lookup scopes name = some sym ↔ Selects scopes name sym := by
  induction scopes with
  | nil => simp [Scope.lookup, Selects]
  | cons scope outer ih =>
    obtain ⟨hscope, houter⟩ := forall_mem_cons.1 hn
    by_cases h : name ∈ scope.names
    · rw [selects_cons_of_mem hscope h, Scope.lookup, List.findSome?_cons]
      cases hf : scope.find? name with
      | none => exact absurd h (Scope.find?_eq_none.1 hf)
      | some s => rfl
    · rw [selects_cons_of_not_mem h, ← ih houter, Scope.lookup, List.findSome?_cons,
        Scope.find?_eq_none.2 h]
      rfl

end

/-! ### Expressions -/

/-- An identifier stands for a variable or parameter. -/
def Ident.Finds (scopes : List Scope) (id : Ident) : Prop :=
  ∃ sym, Selects scopes id.name sym ∧ sym.isCallable = false

/-- A name stands for something that can be called. -/
def FindsCallee (scopes : List Scope) (func : String) : Prop :=
  ∃ sym, Selects scopes func sym ∧ sym.isCallable = true

mutual

/-- The names of an expression stand for what they are used as. -/
def Expr.Finds (scopes : List Scope) : Expr → Prop
  | .int _ _ | .bool _ _ | .string _ _ => True
  | .ident id => id.Finds scopes
  | .index _ _ array idx => array.Finds scopes ∧ idx.Finds scopes
  | .binary _ _ _ left right => left.Finds scopes ∧ right.Finds scopes
  | .unary _ _ _ x => x.Finds scopes
  | .call _ _ func args => FindsCallee scopes func ∧ Expr.FindsAll scopes args

/-- The names of expressions stand for what they are used as. -/
def Expr.FindsAll (scopes : List Scope) : List Expr → Prop
  | [] => True
  | x :: xs => x.Finds scopes ∧ Expr.FindsAll scopes xs

end

/-- An identifier with the declaration it stands for, and the type of that. -/
def Ident.bound (scopes : List Scope) (id : Ident) : Ident :=
  match Scope.lookup scopes id.name with
  | some sym => { id with type := sym.type, symbol := some sym }
  | none => id

/-- The type of the first result of what a name stands for. -/
def resultType (scopes : List Scope) (func : String) : Ty :=
  match Scope.lookup scopes func with
  | some sym => sym.returns.headD .void
  | none => .void

mutual

/-- An expression with its names bound and with types. -/
def Expr.bound (scopes : List Scope) : Expr → Expr
  | .index span type array idx =>
    .index span (((array.bound scopes).type.bind Ty.elem?).or type) (array.bound scopes)
      (idx.bound scopes)
  | .binary span _ op left right =>
    .binary span (some (if op.isComparison || op.isLogical then .bool else .int)) op
      (left.bound scopes) (right.bound scopes)
  | .unary span _ op x =>
    .unary span (some (if op = .logNot then .bool else .int)) op (x.bound scopes)
  | .call span _ func args =>
    .call span (some (resultType scopes func)) func (Expr.boundAll scopes args)
  | .ident id => .ident (id.bound scopes)
  | x => x

def Expr.boundAll (scopes : List Scope) : List Expr → List Expr
  | [] => []
  | x :: xs => x.bound scopes :: Expr.boundAll scopes xs

end

section

variable {scopes : List Scope}

lemma Ident.bound_of_selects (hn : ∀ s ∈ scopes, s.names.Nodup) {id : Ident}
    (h : Selects scopes id.name sym) :
    id.bound scopes = { id with type := sym.type, symbol := some sym } := by
  rw [Ident.bound, (lookup_eq_some_iff hn).2 h]

lemma makes_ident (hn : ∀ s ∈ scopes, s.names.Nodup) (id : Ident) :
    Makes (resolveIdent scopes id) (id.Finds scopes) (id.bound scopes) := by
  unfold resolveIdent Ident.Finds Ident.bound
  simp only [← lookup_eq_some_iff hn]
  cases Scope.lookup scopes id.name with
  | none => exact .fails rfl (by simp)
  | some sym =>
    show Makes (if sym.isCallable = true then _ else _) _ _
    split
    · next h => exact .fails rfl (by simp [h])
    · next h => exact .congr (.pure _) (by simpa using h)

lemma makes_calleeType (hn : ∀ s ∈ scopes, s.names.Nodup) (func : String) (span : Span) :
    Makes (calleeType scopes func span) (FindsCallee scopes func) (resultType scopes func) := by
  unfold calleeType FindsCallee resultType
  simp only [← lookup_eq_some_iff hn]
  cases Scope.lookup scopes func with
  | none => exact .fails rfl (by simp)
  | some sym =>
    show Makes (if sym.isCallable = true then _ else _) _ _
    split
    · next h => exact .congr (.pure _) (by simpa using h)
    · next h => exact .fails rfl (by simp [h])

mutual

lemma makes_expr (hn : ∀ s ∈ scopes, s.names.Nodup) :
    (e : Expr) → Makes (resolveExpr scopes e) (e.Finds scopes) (e.bound scopes)
  | .int _ _ | .bool _ _ | .string _ _ => .pure _
  | .ident id => .congr (.bind (makes_ident hn id) fun _ => .pure _) (and_iff_left trivial)
  | .index _ _ array idx => .congr (.bind (makes_expr hn array) fun _ =>
    .bind (makes_expr hn idx) fun _ => .pure _) (by simp [Expr.Finds])
  | .binary _ _ _ left right => .congr (.bind (makes_expr hn left) fun _ =>
    .bind (makes_expr hn right) fun _ => .pure _) (by simp [Expr.Finds])
  | .unary _ _ _ x => .congr (.bind (makes_expr hn x) fun _ => .pure _) (and_iff_left trivial)
  | .call span _ func args => .congr (.bind (makes_calleeType hn func span) fun _ =>
    .bind (makes_exprs hn args) fun _ => .pure _) (by simp [Expr.Finds])

lemma makes_exprs (hn : ∀ s ∈ scopes, s.names.Nodup) :
    (es : List Expr) → Makes (resolveExprs scopes es) (Expr.FindsAll scopes es)
      (Expr.boundAll scopes es)
  | [] => .pure _
  | e :: es => .congr (.bind (makes_expr hn e) fun _ => .bind (makes_exprs hn es) fun _ =>
    .pure _) (by simp [Expr.FindsAll])

end

lemma makes_idents (hn : ∀ s ∈ scopes, s.names.Nodup) (ids : List Ident) (n : Nat) :
    Makes ((ids.mapM fun id => (liftM (resolveIdent scopes id) : Resolving Ident)) n)
      (∀ id ∈ ids, id.Finds scopes) (ids.map (·.bound scopes), n) := by
  induction ids with
  | nil =>
    rw [mapM_nil]
    exact Makes.congr (.pure _) (by simp)
  | cons id ids ih =>
    rw [mapM_cons]
    exact Makes.congr (.andThen (.lift (makes_ident hn id)) fun _ =>
      .andThen ih fun _ => .pure _) (by simp)

end

/-! ### Declarations -/

mutual

/-- How many declarations there are in a statement, those in inner scopes included. -/
def Stmt.count : Stmt → Nat
  | .block _ _ ss => Stmt.countAll ss
  | .var .. | .array .. => 1
  | .branch _ _ yes none => yes.count
  | .branch _ _ yes (some no) => yes.count + no.count
  | .loop _ _ body => body.count
  | _ => 0

/-- How many declarations there are in statements. -/
def Stmt.countAll : List Stmt → Nat
  | [] => 0
  | s :: ss => s.count + Stmt.countAll ss

end

/-- What a statement declares in the scope it stands in, numbered from `n` on. -/
def Stmt.symbols (n : Nat) : Stmt → List Symbol
  | .var _ name type _ | .array _ name type _ _ => [{ id := n, name, kind := .variable, type }]
  | .branch _ _ yes none => yes.symbols n
  | .branch _ _ yes (some no) => yes.symbols n ++ no.symbols (n + yes.count)
  | .loop _ _ body => body.symbols n
  | _ => []

/-- What statements declare in the scope they stand in. -/
def Stmt.symbolsAll : Nat → List Stmt → List Symbol
  | _, [] => []
  | n, s :: ss => s.symbols n ++ Stmt.symbolsAll (n + s.count) ss

/-- The names that a statement declares in the scope it stands in. -/
def Stmt.declares : Stmt → List String
  | .var _ name _ _ | .array _ name _ _ _ => [name]
  | .branch _ _ yes none => yes.declares
  | .branch _ _ yes (some no) => yes.declares ++ no.declares
  | .loop _ _ body => body.declares
  | _ => []

/-- The names that statements declare in the scope they stand in. -/
def Stmt.declaresAll (ss : List Stmt) : List String :=
  ss.flatMap Stmt.declares

mutual

/-- No block in a statement declares a name twice. -/
def Stmt.Distinct : Stmt → Prop
  | .block _ _ ss => (Stmt.declaresAll ss).Nodup ∧ Stmt.DistinctAll ss
  | .branch _ _ yes none => yes.Distinct
  | .branch _ _ yes (some no) => yes.Distinct ∧ no.Distinct
  | .loop _ _ body => body.Distinct
  | _ => True

/-- No block in statements declares a name twice. -/
def Stmt.DistinctAll : List Stmt → Prop
  | [] => True
  | s :: ss => s.Distinct ∧ Stmt.DistinctAll ss

end

@[simp] lemma Stmt.names_symbols (n : Nat) (s : Stmt) :
    (s.symbols n).map (·.name) = s.declares := by
  fun_induction Stmt.symbols n s <;> simp_all [Stmt.declares]

@[simp] lemma Stmt.names_symbolsAll (n : Nat) (ss : List Stmt) :
    (Stmt.symbolsAll n ss).map (·.name) = Stmt.declaresAll ss := by
  fun_induction Stmt.symbolsAll n ss <;> simp_all [Stmt.declaresAll]

lemma makes_declare (scope : Scope) (sym : Symbol) (span : Span) :
    Makes (declare scope sym span) (sym.name ∉ scope.names) (scope.extend [sym]) := by
  unfold declare Scope.define
  cases h : scope.find? sym.name with
  | some other => exact .fails rfl fun hn => by simp [Scope.find?_eq_none.2 hn] at h
  | none => exact Makes.congr (.pure _) (by simp [Scope.find?_eq_none.1 h])

lemma makes_declareNext (scope : Scope) (kind : SymbolKind) (name : String)
    (type : Option Ty) (span : Span) (n : Nat) :
    Makes (declareNext scope kind name type span n) (name ∉ scope.names)
      (scope.extend [{ id := n, name, kind, type }], n + 1) :=
  .congr (.andThen (.pure (n, n + 1)) fun _ => .lift (makes_declare scope _ span))
    (and_iff_right trivial)

/-! ### Statements -/

mutual

/-- The names of a statement stand for what they are used as. The scope it stands in has grown
to `inner`, and is inside `outer`. -/
def Stmt.Finds (inner : Scope) (outer : List Scope) (n : Nat) : Stmt → Prop
  | .block _ _ ss => Stmt.FindsAll {} (inner :: outer) n ss
  | .var _ _ _ none => True
  | .var _ _ _ (some x) => x.Finds (inner :: outer)
  | .array _ _ _ sizes elements =>
    Expr.FindsAll (inner :: outer) sizes ∧ Expr.FindsAll (inner :: outer) elements
  | .assign _ target value => target.Finds (inner :: outer) ∧ value.Finds (inner :: outer)
  | .multi _ targets _ _ func args => FindsCallee (inner :: outer) func ∧
    Expr.FindsAll (inner :: outer) args ∧ ∀ id ∈ targets, id.Finds (inner :: outer)
  | .branch _ cond yes none => cond.Finds (inner :: outer) ∧ yes.Finds inner outer n
  | .branch _ cond yes (some no) => cond.Finds (inner :: outer) ∧ yes.Finds inner outer n ∧
    no.Finds (inner.extend (yes.symbols n)) outer (n + yes.count)
  | .loop _ cond body => cond.Finds (inner :: outer) ∧ body.Finds inner outer n
  | .ret _ values => Expr.FindsAll (inner :: outer) values
  | .expr _ x => x.Finds (inner :: outer)
  | .missing => True

/-- The names of statements stand for what they are used as; each statement sees what the ones
before it declare. -/
def Stmt.FindsAll (inner : Scope) (outer : List Scope) (n : Nat) : List Stmt → Prop
  | [] => True
  | s :: ss => s.Finds inner outer n ∧
    Stmt.FindsAll (inner.extend (s.symbols n)) outer (n + s.count) ss

end

mutual

/-- A statement with its names bound and its blocks with their scopes. -/
def Stmt.bound (inner : Scope) (outer : List Scope) (n : Nat) : Stmt → Stmt
  | .block span _ ss => .block span (some { symbols := Stmt.symbolsAll n ss })
    (Stmt.boundAll {} (inner :: outer) n ss)
  | .var span name type none => .var span name type none
  | .var span name type (some x) => .var span name type (some (x.bound (inner :: outer)))
  | .array span name type sizes elements => .array span name type
    (Expr.boundAll (inner :: outer) sizes) (Expr.boundAll (inner :: outer) elements)
  | .assign span target value =>
    .assign span (target.bound (inner :: outer)) (value.bound (inner :: outer))
  | .multi span targets callSpan _ func args =>
    .multi span (targets.map (·.bound (inner :: outer))) callSpan
      (some (resultType (inner :: outer) func)) func (Expr.boundAll (inner :: outer) args)
  | .branch span cond yes none =>
    .branch span (cond.bound (inner :: outer)) (yes.bound inner outer n) none
  | .branch span cond yes (some no) =>
    .branch span (cond.bound (inner :: outer)) (yes.bound inner outer n)
      (some (no.bound (inner.extend (yes.symbols n)) outer (n + yes.count)))
  | .loop span cond body => .loop span (cond.bound (inner :: outer)) (body.bound inner outer n)
  | .ret span values => .ret span (Expr.boundAll (inner :: outer) values)
  | .expr span x => .expr span (x.bound (inner :: outer))
  | .missing => .missing

def Stmt.boundAll (inner : Scope) (outer : List Scope) (n : Nat) : List Stmt → List Stmt
  | [] => []
  | s :: ss => s.bound inner outer n ::
    Stmt.boundAll (inner.extend (s.symbols n)) outer (n + s.count) ss

end

/-- What it takes for a statement to be resolved after what a scope declares already. -/
def Stmt.Scoped (inner : Scope) (outer : List Scope) (n : Nat) (s : Stmt) : Prop :=
  s.Finds inner outer n ∧ s.Distinct ∧ (inner.names ++ s.declares).Nodup

/-- What it takes for statements to be resolved after what a scope declares already. -/
def Stmt.ScopedAll (inner : Scope) (outer : List Scope) (n : Nat) (ss : List Stmt) : Prop :=
  Stmt.FindsAll inner outer n ss ∧ Stmt.DistinctAll ss ∧ (inner.names ++ Stmt.declaresAll ss).Nodup

section

variable {inner : Scope} {outer : List Scope} {n : Nat}

lemma nodup_append_iff {xs ys zs : List String} :
    (xs ++ ys).Nodup ∧ (xs ++ ys ++ zs).Nodup ↔ (xs ++ (ys ++ zs)).Nodup := by
  rw [append_assoc]
  exact ⟨And.right, fun h => ⟨(append_assoc xs ys zs ▸ h).of_append_left, h⟩⟩

lemma extend_nil : inner.extend [] = inner := by
  simp [Scope.extend]

lemma extend_append : (inner.extend xs).extend ys = inner.extend (xs ++ ys) := by
  simp [Scope.extend]

lemma Stmt.Scoped.extended {s : Stmt} (h : s.Scoped inner outer n)
    (hn : ∀ t ∈ inner :: outer, t.names.Nodup) :
    ∀ t ∈ inner.extend (s.symbols n) :: outer, t.names.Nodup := by
  refine forall_mem_cons.2 ⟨?_, (forall_mem_cons.1 hn).2⟩
  simpa using h.2.2

lemma Makes.same {ok : Prop} {m : Except Error ((Stmt × Scope) × Nat)} {s s' : Stmt} {n' : Nat}
    (hn : ∀ t ∈ inner :: outer, t.names.Nodup) (h : Makes m ok ((s', inner), n'))
    (hs : s.symbols n = []) (hok : ok ↔ s.Finds inner outer n ∧ s.Distinct) :
    Makes m (s.Scoped inner outer n) ((s', inner.extend (s.symbols n)), n') := by
  have hd : s.declares = [] := by rw [← s.names_symbols n, hs, map_nil]
  rw [hs, extend_nil]
  refine h.congr ?_
  rw [Stmt.Scoped, hok, hd, List.append_nil]
  exact ⟨fun h => ⟨h.1, h.2, hn _ mem_cons_self⟩, fun h => ⟨h.1, h.2.1⟩⟩

lemma Makes.one {ok : Prop} {m : Except Error ((Stmt × Scope) × Nat)} {s s' : Stmt} {n' : Nat}
    {sym : Symbol} (hn : ∀ t ∈ inner :: outer, t.names.Nodup) (hs : s.symbols n = [sym])
    (h : Makes m ok ((s', inner.extend [sym]), n'))
    (hok : ok ↔ s.Finds inner outer n ∧ s.Distinct ∧ sym.name ∉ inner.names) :
    Makes m (s.Scoped inner outer n) ((s', inner.extend (s.symbols n)), n') := by
  have hd : s.declares = [sym.name] := by rw [← s.names_symbols n, hs, map_singleton]
  rw [hs]
  refine h.congr ?_
  rw [Stmt.Scoped, hok, hd, nodup_append_comm, singleton_append, nodup_cons]
  simp [hn inner]

mutual

/-- Resolving a statement succeeds exactly if its names are found and no scope declares a name
twice. -/
lemma makes_stmt {inner outer n} : (s : Stmt) → (∀ t ∈ inner :: outer, t.names.Nodup) →
    Makes (resolveStmt inner outer s n) (s.Scoped inner outer n) ((s.bound inner outer n,
      inner.extend (s.symbols n)), n + s.count)
  | .block _ _ ss, hn => .same hn
    (.andThen (makes_stmts ss (forall_mem_cons.2 ⟨nodup_nil, hn⟩)) fun _ => .pure _)
    rfl (by simp [Stmt.ScopedAll, Stmt.Finds, Stmt.Distinct, Scope.names, and_comm])
  | .var _ _ _ (some x), hn => .one hn rfl
    (.andThen (.lift (makes_expr hn x)) fun _ =>
      .andThen (makes_declareNext inner _ _ _ _ n) fun _ => .pure _)
    (by simp [Stmt.Finds, Stmt.Distinct])
  | .var _ _ _ none, hn => .one hn rfl
    (.andThen (makes_declareNext inner _ _ _ _ n) fun _ => .pure _)
    (by simp [Stmt.Finds, Stmt.Distinct])
  | .array _ _ _ sizes elements, hn => .one hn rfl
    (.andThen (.lift (makes_exprs hn sizes)) fun _ =>
      .andThen (.lift (makes_exprs hn elements)) fun _ =>
        .andThen (makes_declareNext inner _ _ _ _ n) fun _ => .pure _)
    (by simp [Stmt.Finds, Stmt.Distinct, and_assoc])
  | .assign _ target value, hn => .same hn
    (.andThen (.lift (makes_expr hn target)) fun _ =>
      .andThen (.lift (makes_expr hn value)) fun _ => .pure _)
    rfl (by simp [Stmt.Finds, Stmt.Distinct])
  | .multi _ targets span _ func args, hn => .same hn
    (.andThen (.lift (makes_calleeType hn func span)) fun _ =>
      .andThen (.lift (makes_exprs hn args)) fun _ =>
        .andThen (makes_idents hn targets n) fun _ => .pure _)
    rfl (by simp [Stmt.Finds, Stmt.Distinct])
  | .branch _ cond yes none, hn =>
    .congr (.andThen (.lift (makes_expr hn cond)) fun _ =>
      .andThen (makes_stmt yes hn) fun _ => .pure _)
    (by simp [Stmt.Scoped, Stmt.Finds, Stmt.Distinct, Stmt.declares, and_assoc])
  | .branch _ cond yes (some no), hn => by
    rw [Stmt.symbols, ← extend_append, Stmt.count, ← add_assoc]
    refine .congr (.andThen (.lift (makes_expr hn cond)) fun _ =>
      .andThen (makes_stmt yes hn) fun hy =>
        .andThen (makes_stmt no (hy.extended hn)) fun _ => .pure _) ?_
    simp only [Stmt.Scoped, Stmt.Finds, Stmt.Distinct, Stmt.declares, Scope.names_extend,
      Stmt.names_symbols, ← nodup_append_iff]
    tauto
  | .loop _ cond body, hn =>
    .congr (.andThen (.lift (makes_expr hn cond)) fun _ =>
      .andThen (makes_stmt body hn) fun _ => .pure _)
    (by simp [Stmt.Scoped, Stmt.Finds, Stmt.Distinct, Stmt.declares, and_assoc])
  | .ret _ values, hn => .same hn
    (.andThen (.lift (makes_exprs hn values)) fun _ => .pure _)
    rfl (by simp [Stmt.Finds, Stmt.Distinct])
  | .expr _ x, hn => .same hn
    (.andThen (.lift (makes_expr hn x)) fun _ => .pure _)
    rfl (by simp [Stmt.Finds, Stmt.Distinct])
  | .missing, hn => .same hn (.pure _) rfl (by simp [Stmt.Finds, Stmt.Distinct])

lemma makes_stmts {inner outer n} : (ss : List Stmt) → (∀ t ∈ inner :: outer, t.names.Nodup) →
    Makes (resolveStmts inner outer ss n) (Stmt.ScopedAll inner outer n ss) ((Stmt.boundAll inner
      outer n ss, inner.extend (Stmt.symbolsAll n ss)), n + Stmt.countAll ss)
  | [], hn => by
    rw [Stmt.symbolsAll, extend_nil]
    exact .congr (.pure _) (by simp [Stmt.ScopedAll, Stmt.FindsAll, Stmt.DistinctAll,
      Stmt.declaresAll, hn inner])
  | s :: ss, hn => by
    rw [Stmt.symbolsAll, ← extend_append, Stmt.countAll, ← add_assoc]
    refine .congr (.andThen (makes_stmt s hn) fun hs =>
      .andThen (makes_stmts ss (hs.extended hn)) fun _ => .pure _) ?_
    simp only [Stmt.Scoped, Stmt.ScopedAll, Stmt.FindsAll, Stmt.DistinctAll, Scope.names_extend,
      Stmt.names_symbols, Stmt.declaresAll, flatMap_cons, ← nodup_append_iff]
    tauto

end

end

/-! ### Functions -/

/-- The declarations of parameters, numbered from `n` on. -/
def paramSymbols : Nat → List Param → List Symbol
  | _, [] => []
  | n, p :: ps =>
    { id := n, name := p.name, kind := .parameter, type := p.type } :: paramSymbols (n + 1) ps

/-- The declarations of functions, numbered from `n` on. -/
def functionSymbols : Nat → List Function → List Symbol
  | _, [] => []
  | n, f :: fs =>
    { id := n, name := f.name, kind := .function, returns := f.returns } ::
      functionSymbols (n + 1) fs

@[simp] lemma names_paramSymbols (n : Nat) (ps : List Param) :
    (paramSymbols n ps).map (·.name) = ps.map (·.name) := by
  fun_induction paramSymbols n ps <;> simp_all

@[simp] lemma names_functionSymbols (n : Nat) (fs : List Function) :
    (functionSymbols n fs).map (·.name) = fs.map (·.name) := by
  fun_induction functionSymbols n fs <;> simp_all

section

variable {scope : Scope} {n : Nat}

lemma Makes.declaring (sym : Symbol) {names : List String} {symbols : List Symbol}
    {start next stop : Nat} {m : Resolving Scope} {f : Scope → Resolving Scope}
    (hn : scope.names.Nodup)
    (hm : Makes (m start) (sym.name ∉ scope.names) (scope.extend [sym], next))
    (hf : (scope.extend [sym]).names.Nodup → Makes (f (scope.extend [sym]) next)
      ((scope.extend [sym]).names ++ names).Nodup ((scope.extend [sym]).extend symbols, stop)) :
    Makes ((m >>= f) start) (scope.names ++ sym.name :: names).Nodup
      (scope.extend (sym :: symbols), stop) := by
  have hone : sym.name ∉ scope.names ↔ (scope.extend [sym]).names.Nodup := by
    rw [Scope.names_extend, nodup_append_comm]
    simp [hn]
  rw [← singleton_append (l := symbols), ← extend_append]
  refine .congr (hm.andThen fun h => hf (hone.1 h)) ?_
  rw [hone, Scope.names_extend]
  exact nodup_append_iff

lemma makes_paramScope (ps : List Param) (hn : scope.names.Nodup) :
    Makes (paramScope scope ps n) (scope.names ++ ps.map (·.name)).Nodup
      (scope.extend (paramSymbols n ps), n + ps.length) := by
  induction ps generalizing scope n with
  | nil =>
    rw [paramSymbols, extend_nil]
    exact .congr (.pure _) (by simp [hn])
  | cons p ps ih =>
    rw [length_cons, add_comm ps.length, ← add_assoc]
    exact .declaring { id := n, name := p.name, kind := .parameter, type := p.type } hn
      (makes_declareNext scope _ _ _ p.span n) fun h => ih h

lemma makes_functionScope (fs : List Function) (hn : scope.names.Nodup) :
    Makes (functionScope scope fs n) (scope.names ++ fs.map (·.name)).Nodup
      (scope.extend (functionSymbols n fs), n + fs.length) := by
  induction fs generalizing scope n with
  | nil =>
    rw [functionSymbols, extend_nil]
    exact .congr (.pure _) (by simp [hn])
  | cons f fs ih =>
    rw [length_cons, add_comm fs.length, ← add_assoc]
    -- the number is taken before the declaration is made
    show Makes (((declare scope _ f.span : Resolving Scope) >>= (functionScope · fs)) (n + 1)) _ _
    exact .declaring { id := n, name := f.name, kind := .function, returns := f.returns } hn
      (.lift (makes_declare scope _ f.span)) fun h => ih h

end

def Function.stmts (f : Function) : List Stmt :=
  (f.body.getD { span := f.span }).stmts

/-- How many declarations there are in a function. -/
def Function.count (f : Function) : Nat :=
  f.params.length + Stmt.countAll f.stmts

def Function.parameters (n : Nat) (f : Function) : Scope where
  symbols := paramSymbols n f.params

/-- Neither the parameters of a function nor a block in it declare a name twice. -/
def Function.Distinct (f : Function) : Prop :=
  (f.params.map (·.name)).Nodup ∧ (Stmt.declaresAll f.stmts).Nodup ∧ Stmt.DistinctAll f.stmts

/-- The names in a function stand for what they are used as. -/
def Function.Finds (outer : List Scope) (n : Nat) (f : Function) : Prop :=
  Stmt.FindsAll {} (f.parameters n :: outer) (n + f.params.length) f.stmts

def Function.bound (outer : List Scope) (n : Nat) (f : Function) : Function :=
  { f with
    scope := some (f.parameters n)
    body := some { f.body.getD { span := f.span } with
      scope := some { symbols := Stmt.symbolsAll (n + f.params.length) f.stmts }
      stmts := Stmt.boundAll {} (f.parameters n :: outer) (n + f.params.length) f.stmts } }

/-- The names in functions stand for what they are used as. -/
def Function.FindsAll (outer : List Scope) : Nat → List Function → Prop
  | _, [] => True
  | n, f :: fs => f.Finds outer n ∧ Function.FindsAll outer (n + f.count) fs

def Function.boundAll (outer : List Scope) : Nat → List Function → List Function
  | _, [] => []
  | n, f :: fs => f.bound outer n :: Function.boundAll outer (n + f.count) fs

lemma Function.mem_boundAll (h : f ∈ Function.boundAll outer n fs) :
    ∃ g n, g ∈ fs ∧ f = g.bound outer n := by
  induction fs generalizing n with
  | nil => cases h
  | cons g fs ih =>
    rcases mem_cons.1 h with rfl | h
    · exact ⟨g, n, mem_cons_self, rfl⟩
    · obtain ⟨g', n', hg, rfl⟩ := ih h
      exact ⟨g', n', mem_cons_of_mem _ hg, rfl⟩

lemma makes_function {outer : List Scope} (hn : ∀ s ∈ outer, s.names.Nodup) (f : Function)
    (n : Nat) : Makes (resolveFunction outer f n) (f.Finds outer n ∧ f.Distinct)
      (f.bound outer n, n + f.count) := by
  rw [Function.count, ← add_assoc]
  have hempty : ({} : Scope).names.Nodup := nodup_nil
  refine .congr (.andThen (makes_paramScope f.params hempty) fun hp =>
    .andThen (makes_stmts f.stmts (forall_mem_cons.2 ⟨hempty,
      forall_mem_cons.2 ⟨?_, hn⟩⟩)) fun _ => .pure _) ?_
  · simpa using hp
  · simp [Function.Distinct, Function.Finds, Stmt.ScopedAll, Scope.names]
    tauto

lemma makes_functions (hn : ∀ s ∈ outer, s.names.Nodup) (fs : List Function) (n : Nat) :
    Makes (resolveFunctions outer fs n)
      (Function.FindsAll outer n fs ∧ ∀ f ∈ fs, f.Distinct) (Function.boundAll outer n fs) := by
  induction fs generalizing n with
  | nil => exact .congr (.pure _) (by simp [Function.FindsAll])
  | cons f fs ih =>
    refine .congr (.bind (.wrap (makes_function hn f n) _) fun _ =>
      .bind (ih (n + f.count)) fun _ => .pure _) ?_
    simp only [Function.FindsAll, forall_mem_cons]
    tauto

/-! ### Programs -/

/-- The scopes around the functions of a program: that of the functions, and the outermost. -/
def Program.globals (p : Program) : List Scope :=
  [{ symbols := functionSymbols Scope.builtins.length p.functions }, Scope.outermost]

/-- No scope of a program declares a name twice: neither the functions, nor the parameters of
one of them, nor a block. -/
def Program.Distinct (p : Program) : Prop :=
  (p.functions.map (·.name)).Nodup ∧ ∀ f ∈ p.functions, f.Distinct

/-- Every identifier in a program stands for a variable or parameter, and every name that is
called for a function or a routine that is built in. -/
def Program.Finds (p : Program) : Prop :=
  Function.FindsAll p.globals (Scope.builtins.length + p.functions.length) p.functions

def Program.bound (p : Program) : Program :=
  { p with
    functions :=
      Function.boundAll p.globals (Scope.builtins.length + p.functions.length) p.functions
    scope := some { symbols := functionSymbols Scope.builtins.length p.functions } }

@[simp] lemma Function.names_boundAll (outer : List Scope) (n : Nat) (fs : List Function) :
    (Function.boundAll outer n fs).map (·.name) = fs.map (·.name) := by
  fun_induction Function.boundAll outer n fs <;> simp_all [Function.bound]

lemma Program.names_bound (p : Program) :
    p.bound.functions.map (·.name) = p.functions.map (·.name) :=
  Function.names_boundAll ..

lemma Program.nodup_globals (p : Program) (h : (p.functions.map (·.name)).Nodup) :
    ∀ s ∈ p.globals, s.names.Nodup := by
  refine forall_mem_cons.2 ⟨?_, by simpa using (by decide : Scope.outermost.names.Nodup)⟩
  simpa [Scope.names] using h

/-- Resolving a program succeeds exactly if no scope declares a name twice and all names are
found, and then binds them. -/
lemma makes_program (p : Program) : Makes p.resolve (p.Distinct ∧ p.Finds) p.bound := by
  have hempty : ({} : Scope).names.Nodup := nodup_nil
  refine .congr (.bind (makes_functionScope p.functions hempty) fun hp =>
    .bind (makes_functions (p.nodup_globals hp) p.functions _) fun _ => .pure _) ?_
  simp [Program.Distinct, Program.Finds, Scope.names]
  tauto

/-- Names are resolved by lexical scoping. A program can be resolved exactly if no scope declares
a name twice and every name stands for what it is used as; then every identifier is bound to the
declaration that it stands for and has its type. A name that the statements before a place in
a block do not declare stands there for what it stands for outside the block, even if a
statement of the block declares it at that place or later. -/
theorem resolves_lexically (p : Program) :
    (∀ q, p.resolve = .ok q ↔ (p.Distinct ∧ p.Finds) ∧ q = p.bound) ∧
    (∀ scopes : List Scope, (∀ s ∈ scopes, s.names.Nodup) → ∀ (id : Ident) sym,
      Selects scopes id.name sym →
        id.bound scopes = { id with type := sym.type, symbol := some sym }) ∧
    ∀ (before : List Stmt) n outer name sym, name ∉ Stmt.declaresAll before →
      (Selects ({ symbols := Stmt.symbolsAll n before } :: outer) name sym ↔
        Selects outer name sym) := by
  refine ⟨(makes_program p).eq_ok_iff, fun scopes hn id sym h => Ident.bound_of_selects hn h,
    fun before n outer name sym h => selects_cons_of_not_mem ?_⟩
  rwa [Scope.names, Stmt.names_symbolsAll]

end TreeMachine.Tree
