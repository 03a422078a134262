import TreeMachine.Proofs.Scoping

/-!
# What resolving a tree gives

In a resolved tree every name that is called can be called, and every use of a variable
stands for a declaration that is in scope there and comes before it. Declarations have
numbers of their own, in the order of the tree, and the scope that a block carries gives
each of its declarations by name.
-/

open List

namespace TreeMachine.Tree

/-- An identifier stands for a declaration whose number is among those seen. -/
def Ident.Resolved (seen : List Nat) (id : Ident) : Prop :=
  ∃ sym, id.symbol = some sym ∧ sym.id ∈ seen

mutual

/-- Calls go to names that can be called, identifiers stand for declarations that were
seen. -/
def Expr.Resolved (callee : String → Prop) (seen : List Nat) : Expr → Prop
  | .int _ _ => True
  | .bool _ _ => True
  | .string _ _ => True
  | .ident id => id.Resolved seen
  | .index _ _ array idx => array.Resolved callee seen ∧ idx.Resolved callee seen
  | .binary _ _ _ left right => left.Resolved callee seen ∧ right.Resolved callee seen
  | .unary _ _ _ x => x.Resolved callee seen
  | .call _ _ func args => callee func ∧ Expr.ResolvedAll callee seen args

def Expr.ResolvedAll (callee : String → Prop) (seen : List Nat) : List Expr → Prop
  | [] => True
  | x :: xs => x.Resolved callee seen ∧ Expr.ResolvedAll callee seen xs

end

mutual

/-- A statement is resolved: declarations go to `scope` and are numbered from `n` on. The
numbers in scope after it are `seen'`, the next number is `n'`. -/
inductive Stmt.Resolved (callee : String → Prop) :
    Scope → List Nat → Nat → Stmt → List Nat → Nat → Prop where
  | block {scope seen n span inner ss seen' n'} :
    Stmts.Resolved callee inner seen n ss seen' n' →
    Stmt.Resolved callee scope seen n (.block span (some inner) ss) seen n'
  | declare {scope seen n span name type sym} : scope.find? name = some sym → sym.id = n →
    Stmt.Resolved callee scope seen n (.var span name type none) (n :: seen) (n + 1)
  | var {scope seen n span name type x sym} : x.Resolved callee seen →
    scope.find? name = some sym → sym.id = n →
    Stmt.Resolved callee scope seen n (.var span name type (some x)) (n :: seen) (n + 1)
  | array {scope seen n span name type sizes elements sym} :
    Expr.ResolvedAll callee seen sizes → Expr.ResolvedAll callee seen elements →
    scope.find? name = some sym → sym.id = n →
    Stmt.Resolved callee scope seen n (.array span name type sizes elements) (n :: seen) (n + 1)
  | assign {scope seen n span target value} : target.Resolved callee seen →
    value.Resolved callee seen →
    Stmt.Resolved callee scope seen n (.assign span target value) seen n
  | multi {scope seen n span targets callSpan callType func args} : callee func →
    Expr.ResolvedAll callee seen args → (∀ id ∈ targets, id.Resolved seen) →
    Stmt.Resolved callee scope seen n (.multi span targets callSpan callType func args) seen n
  | ifThen {scope seen n span cond yes seen' n'} : cond.Resolved callee seen →
    Stmt.Resolved callee scope seen n yes seen' n' →
    Stmt.Resolved callee scope seen n (.branch span cond yes none) seen' n'
  | ifElse {scope seen n span cond yes no seen1 n1 seen2 n2} : cond.Resolved callee seen →
    Stmt.Resolved callee scope seen n yes seen1 n1 →
    Stmt.Resolved callee scope seen1 n1 no seen2 n2 →
    Stmt.Resolved callee scope seen n (.branch span cond yes (some no)) seen2 n2
  | loop {scope seen n span cond body seen' n'} : cond.Resolved callee seen →
    Stmt.Resolved callee scope seen n body seen' n' →
    Stmt.Resolved callee scope seen n (.loop span cond body) seen' n'
  | ret {scope seen n span values} : Expr.ResolvedAll callee seen values →
    Stmt.Resolved callee scope seen n (.ret span values) seen n
  | expr {scope seen n span x} : x.Resolved callee seen →
    Stmt.Resolved callee scope seen n (.expr span x) seen n
  | missing {scope seen n} : Stmt.Resolved callee scope seen n .missing seen n

/-- Statements are resolved, each after the ones before it. -/
inductive Stmts.Resolved (callee : String → Prop) :
    Scope → List Nat → Nat → List Stmt → List Nat → Nat → Prop where
  | nil {scope seen n} : Stmts.Resolved callee scope seen n [] seen n
  | cons {scope seen n s ss seen1 n1 seen2 n2} :
    Stmt.Resolved callee scope seen n s seen1 n1 →
    Stmts.Resolved callee scope seen1 n1 ss seen2 n2 →
    Stmts.Resolved callee scope seen n (s :: ss) seen2 n2

end

/-- The parameters of a function are declared in its scope and numbered from `n` on. -/
inductive ParamsResolved (scope : Scope) :
    List Nat → Nat → List Param → List Nat → Nat → Prop where
  | nil {seen n} : ParamsResolved scope seen n [] seen n
  | cons {seen n p ps sym seen' n'} : scope.find? p.name = some sym → sym.id = n →
    ParamsResolved scope (n :: seen) (n + 1) ps seen' n' →
    ParamsResolved scope seen n (p :: ps) seen' n'

/-- A function is resolved. -/
inductive Function.Resolved (callee : String → Prop) (n : Nat) (f : Function) (n' : Nat) :
    Prop where
  | mk {params scope : Scope} {span ss ids n1 seen} : f.scope = some params →
    f.body = some { span, scope := some scope, stmts := ss } →
    ParamsResolved params [] n f.params ids n1 →
    Stmts.Resolved callee scope ids n1 ss seen n' → Function.Resolved callee n f n'

/-- Functions are resolved, each numbered after the ones before it. -/
inductive Functions.Resolved (callee : String → Prop) : Nat → List Function → Prop where
  | nil {n} : Functions.Resolved callee n []
  | cons {n f fs n'} : Function.Resolved callee n f n' → Functions.Resolved callee n' fs →
    Functions.Resolved callee n (f :: fs)

section

variable {callee : String → Prop}

mutual

lemma subset_of_stmt {scope seen n s seen' n'} :
    Stmt.Resolved callee scope seen n s seen' n' → seen ⊆ seen'
  | .block _ => List.Subset.refl _
  | .declare _ _ => subset_cons_self _ _
  | .var _ _ _ => subset_cons_self _ _
  | .array _ _ _ _ => subset_cons_self _ _
  | .assign _ _ => List.Subset.refl _
  | .multi _ _ _ => List.Subset.refl _
  | .ifThen _ hy => subset_of_stmt hy
  | .ifElse _ hy hn => List.Subset.trans (subset_of_stmt hy) (subset_of_stmt hn)
  | .loop _ hb => subset_of_stmt hb
  | .ret _ => List.Subset.refl _
  | .expr _ => List.Subset.refl _
  | .missing => List.Subset.refl _

lemma subset_of_stmts {scope seen n ss seen' n'} :
    Stmts.Resolved callee scope seen n ss seen' n' → seen ⊆ seen'
  | .nil => List.Subset.refl _
  | .cons hs hss => List.Subset.trans (subset_of_stmt hs) (subset_of_stmts hss)

end

end

/-! ### Scopes -/

/-- What the names in scope stand for at a place. -/
def Sees (callee : String → Prop) (seen : List Nat) (scopes : List Scope) : Prop :=
  ∀ scope ∈ scopes, ∀ sym ∈ scope.symbols,
    if sym.isCallable then callee sym.name else sym.id ∈ seen

def seeing (seen : List Nat) (symbols : List Symbol) : List Nat :=
  (symbols.map (·.id)).reverse ++ seen

/-- A scope may still grow to another one, which declares no name twice. -/
def Scope.Grows (scope final : Scope) : Prop :=
  scope.symbols <+: final.symbols ∧ final.names.Nodup

section

variable {callee : String → Prop} {seen : List Nat} {scopes outer : List Scope}
  {inner final : Scope} {symbols : List Symbol}

lemma seeing_append :
    seeing seen (symbols ++ symbols') = seeing (seeing seen symbols) symbols' := by
  simp [seeing]

lemma Sees.mono (h : Sees callee seen scopes) (hs : seen ⊆ seen') : Sees callee seen' scopes := by
  intro scope hscope sym hsym
  have := h scope hscope sym hsym
  split
  · next hc => rwa [if_pos hc] at this
  · next hc => rw [if_neg hc] at this; exact hs this

lemma Sees.inside (h : Sees callee seen scopes) : Sees callee seen ({} :: scopes) :=
  forall_mem_cons.2 ⟨nofun, h⟩

lemma Sees.extend (h : Sees callee seen (inner :: outer))
    (hs : ∀ sym ∈ symbols, sym.isCallable = false) :
    Sees callee (seeing seen symbols) (inner.extend symbols :: outer) := by
  have hold := h.mono (subset_append_right (symbols.map (·.id)).reverse seen)
  refine forall_mem_cons.2 ⟨fun sym hsym => ?_, (forall_mem_cons.1 hold).2⟩
  rcases mem_append.1 hsym with hsym | hsym
  · exact hold inner mem_cons_self sym hsym
  · rw [if_neg (by simp [hs sym hsym])]
    exact mem_append_left _ (mem_reverse.2 (mem_map_of_mem hsym))

lemma Scope.Grows.before (h : (inner.extend symbols).Grows final) : inner.Grows final :=
  ⟨(prefix_append _ _).trans h.1, h.2⟩

lemma Scope.Grows.nodup (h : inner.Grows final) (ho : ∀ t ∈ outer, t.names.Nodup) :
    ∀ t ∈ inner :: outer, t.names.Nodup :=
  forall_mem_cons.2 ⟨h.2.sublist (h.1.map _).sublist, ho⟩

lemma Scope.Grows.find? (h : (inner.extend (sym :: symbols)).Grows final) :
    final.find? sym.name = some sym :=
  Scope.find?_of_mem h.2 (h.1.subset (mem_append_right _ mem_cons_self))

lemma Stmt.variable_of_mem {s : Stmt} : ∀ sym ∈ s.symbols n, sym.isCallable = false := by
  fun_induction Stmt.symbols n s <;> simp_all [Symbol.isCallable, or_imp, forall_and]

/-! ### Expressions -/

lemma Ident.resolved_bound (hn : ∀ s ∈ scopes, s.names.Nodup) (hs : Sees callee seen scopes)
    {id : Ident} (h : id.Finds scopes) : (id.bound scopes).Resolved seen := by
  obtain ⟨sym, hsel, hc⟩ := h
  obtain ⟨scope, hscope, hsym, -⟩ := hsel.mem
  have := hs scope hscope sym hsym
  rw [if_neg (by simp [hc])] at this
  rw [Ident.bound_of_selects hn hsel]
  exact ⟨sym, rfl, this⟩

lemma callee_of_finds (hs : Sees callee seen scopes) (h : FindsCallee scopes func) :
    callee func := by
  obtain ⟨sym, hsel, hc⟩ := h
  obtain ⟨scope, hscope, hsym, rfl⟩ := hsel.mem
  simpa [hc] using hs scope hscope sym hsym

mutual

lemma Expr.resolved_bound (hn : ∀ s ∈ scopes, s.names.Nodup) (hs : Sees callee seen scopes) :
    (e : Expr) → e.Finds scopes → (e.bound scopes).Resolved callee seen
  | .int _ _, _ | .bool _ _, _ | .string _ _, _ => trivial
  | .ident _, h => Ident.resolved_bound hn hs h
  | .index _ _ array idx, h =>
    ⟨Expr.resolved_bound hn hs array h.1, Expr.resolved_bound hn hs idx h.2⟩
  | .binary _ _ _ left right, h =>
    ⟨Expr.resolved_bound hn hs left h.1, Expr.resolved_bound hn hs right h.2⟩
  | .unary _ _ _ x, h => by
    rw [Expr.bound, Expr.Resolved]
    exact Expr.resolved_bound hn hs x h
  | .call _ _ _ args, h => ⟨callee_of_finds hs h.1, Expr.resolvedAll_bound hn hs args h.2⟩

lemma Expr.resolvedAll_bound (hn : ∀ s ∈ scopes, s.names.Nodup) (hs : Sees callee seen scopes) :
    (es : List Expr) → Expr.FindsAll scopes es →
      Expr.ResolvedAll callee seen (Expr.boundAll scopes es)
  | [], _ => trivial
  | e :: es, h => ⟨Expr.resolved_bound hn hs e h.1, Expr.resolvedAll_bound hn hs es h.2⟩

end

/-! ### Statements -/

mutual

/-- A statement with its names bound is resolved. The scope it stands in has grown to `inner`,
and grows to `final`. -/
lemma Stmt.resolved_bound {seen inner outer n final} : (s : Stmt) → (∀ t ∈ outer, t.names.Nodup) →
    Sees callee seen (inner :: outer) → (inner.extend (s.symbols n)).Grows final →
    s.Finds inner outer n → s.Distinct →
    Stmt.Resolved callee final seen n (s.bound inner outer n) (seeing seen (s.symbols n)) (n +
      s.count)
  | .block _ _ ss, ho, hs, hg, hf, hd =>
    .block (Stmts.resolved_bound ss (hg.before.nodup ho) hs.inside
      ⟨prefix_refl _, by simpa [Scope.names] using hd.1⟩ hf hd.2)
  | .var _ _ _ none, _, _, hg, _, _ => .declare hg.find? rfl
  | .var _ _ _ (some x), ho, hs, hg, hf, _ =>
    .var (x.resolved_bound (hg.before.nodup ho) hs hf) hg.find? rfl
  | .array _ _ _ sizes elements, ho, hs, hg, hf, _ =>
    .array (Expr.resolvedAll_bound (hg.before.nodup ho) hs sizes hf.1)
      (Expr.resolvedAll_bound (hg.before.nodup ho) hs elements hf.2) hg.find? rfl
  | .assign _ target value, ho, hs, hg, hf, _ =>
    .assign (target.resolved_bound (hg.before.nodup ho) hs hf.1)
      (value.resolved_bound (hg.before.nodup ho) hs hf.2)
  | .multi _ targets _ _ _ args, ho, hs, hg, hf, _ =>
    .multi (callee_of_finds hs hf.1) (Expr.resolvedAll_bound (hg.before.nodup ho) hs args hf.2.1)
      (forall_mem_map.2 fun id hid =>
        id.resolved_bound (hg.before.nodup ho) hs (hf.2.2 id hid))
  | .branch _ cond yes none, ho, hs, hg, hf, hd =>
    .ifThen (cond.resolved_bound (hg.before.nodup ho) hs hf.1) (yes.resolved_bound ho hs hg hf.2 hd)
  | .branch _ cond yes (some no), ho, hs, hg, hf, hd => by
    rw [Stmt.symbols, ← extend_append] at hg
    rw [Stmt.symbols, seeing_append, Stmt.count, ← add_assoc]
    exact .ifElse (cond.resolved_bound (hg.before.before.nodup ho) hs hf.1)
      (yes.resolved_bound ho hs hg.before hf.2.1 hd.1)
      (no.resolved_bound ho (hs.extend Stmt.variable_of_mem) hg hf.2.2 hd.2)
  | .loop _ cond body, ho, hs, hg, hf, hd =>
    .loop (cond.resolved_bound (hg.before.nodup ho) hs hf.1) (body.resolved_bound ho hs hg hf.2 hd)
  | .ret _ values, ho, hs, hg, hf, _ =>
    .ret (Expr.resolvedAll_bound (hg.before.nodup ho) hs values hf)
  | .expr _ x, ho, hs, hg, hf, _ =>
    .expr (x.resolved_bound (hg.before.nodup ho) hs hf)
  | .missing, _, _, _, _, _ => .missing

lemma Stmts.resolved_bound {seen inner outer n final} : (ss : List Stmt) →
    (∀ t ∈ outer, t.names.Nodup) → Sees callee seen (inner :: outer) →
    (inner.extend (Stmt.symbolsAll n ss)).Grows final → Stmt.FindsAll inner outer n ss →
    Stmt.DistinctAll ss →
    Stmts.Resolved callee final seen n (Stmt.boundAll inner outer n ss) (seeing seen
      (Stmt.symbolsAll n ss)) (n + Stmt.countAll ss)
  | [], _, _, _, _, _ => .nil
  | s :: ss, ho, hs, hg, hf, hd => by
    rw [Stmt.symbolsAll, ← extend_append] at hg
    rw [Stmt.symbolsAll, seeing_append, Stmt.countAll, ← add_assoc]
    exact .cons (s.resolved_bound ho hs hg.before hf.1 hd.1)
      (Stmts.resolved_bound ss ho (hs.extend Stmt.variable_of_mem) hg hf.2 hd.2)

end

/-! ### Functions -/

lemma variable_of_mem_paramSymbols : ∀ sym ∈ paramSymbols n ps, sym.isCallable = false := by
  fun_induction paramSymbols n ps <;> simp_all [Symbol.isCallable]

lemma paramsResolved (seen : List Nat)
    (h : ∀ sym ∈ paramSymbols n ps, final.find? sym.name = some sym) :
    ParamsResolved final seen n ps (seeing seen (paramSymbols n ps)) (n + ps.length) := by
  induction ps generalizing seen n with
  | nil => exact .nil
  | cons p ps ih =>
    obtain ⟨hp, hps⟩ := forall_mem_cons.1 h
    have := ParamsResolved.cons hp rfl (ih (n :: seen) hps)
    simpa [seeing, paramSymbols, add_assoc, add_comm 1] using this

lemma Function.resolved_bound (ho : ∀ s ∈ outer, s.names.Nodup) (hs : Sees callee [] outer)
    {f : Function} (hf : f.Finds outer n) (hd : f.Distinct) :
    Function.Resolved callee n (f.bound outer n) (n + f.count) := by
  obtain ⟨hp, hss, hd⟩ := hd
  have hparams : (f.parameters n).names.Nodup := by
    simpa [Scope.names, Function.parameters] using hp
  rw [Function.count, ← add_assoc]
  exact .mk rfl rfl (paramsResolved [] fun _ hsym => Scope.find?_of_mem hparams hsym)
    (Stmts.resolved_bound f.stmts (forall_mem_cons.2 ⟨hparams, ho⟩)
      (hs.inside.extend variable_of_mem_paramSymbols).inside
      ⟨prefix_refl _, by simpa [Scope.names] using hss⟩ hf hd)

lemma Functions.resolved_bound (ho : ∀ s ∈ outer, s.names.Nodup) (hs : Sees callee [] outer) :
    (fs : List Function) → Function.FindsAll outer n fs → (∀ f ∈ fs, f.Distinct) →
    Functions.Resolved callee n (Function.boundAll outer n fs)
  | [], _, _ => .nil
  | f :: fs, hf, hd => .cons (f.resolved_bound ho hs hf.1 (hd f mem_cons_self))
    (Functions.resolved_bound ho hs fs hf.2 fun g hg => hd g (mem_cons_of_mem _ hg))

end

/-! ### Programs -/

/-- What a program can call by name: its functions and the routines that are built in. -/
def Program.Callee (p : Program) (name : String) : Prop :=
  name ∈ p.functions.map (·.name) ∨ name ∈ Scope.builtins.map (·.1)

lemma callable_of_mem_functionSymbols :
    ∀ sym ∈ functionSymbols n fs, sym.isCallable = true ∧ sym.name ∈ fs.map (·.name) := by
  fun_induction functionSymbols n fs with
  | case1 => simp
  | case2 n f fs ih =>
    refine forall_mem_cons.2 ⟨⟨rfl, mem_cons_self⟩, fun sym hsym => ?_⟩
    exact ⟨(ih sym hsym).1, mem_cons_of_mem _ (ih sym hsym).2⟩

lemma outermost_symbols (h : sym ∈ Scope.outermost.symbols) :
    sym.isCallable = true ∧ sym.name ∈ Scope.builtins.map (·.1) := by
  simp only [Scope.outermost, mem_map] at h
  obtain ⟨⟨⟨name, returns⟩, id⟩, hmem, rfl⟩ := h
  have := mem_zipIdx hmem
  exact ⟨rfl, by grind⟩

/-- Resolving a program gives resolved functions. -/
lemma resolved_of_resolve {p q : Program} (h : p.resolve = .ok q)
    (hcallee : ∀ name, q.Callee name → callee name) :
    ∃ n, Functions.Resolved callee n q.functions := by
  obtain ⟨⟨hd, hf⟩, rfl⟩ := ((makes_program p).eq_ok_iff q).1 h
  refine ⟨_, Functions.resolved_bound (p.nodup_globals hd.1) ?_ p.functions hf hd.2⟩
  refine forall_mem_cons.2 ⟨fun sym hsym => ?_, forall_mem_singleton.2 fun sym hsym => ?_⟩
  · obtain ⟨hc, hn⟩ := callable_of_mem_functionSymbols sym hsym
    rw [if_pos hc]
    exact hcallee _ (.inl (p.names_bound ▸ hn))
  · obtain ⟨hc, hn⟩ := outermost_symbols hsym
    rw [if_pos hc]
    exact hcallee _ (.inr hn)

/-- The functions of a resolved program have different names. -/
lemma nodup_of_resolve {p q : Program} (h : p.resolve = .ok q) :
    (q.functions.map (·.name)).Nodup := by
  obtain ⟨⟨hd, -⟩, rfl⟩ := ((makes_program p).eq_ok_iff q).1 h
  rw [p.names_bound]
  exact hd.1

end TreeMachine.Tree
