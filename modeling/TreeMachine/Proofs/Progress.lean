import TreeMachine.Proofs.Generated
import TreeMachine.Proofs.Loading

/-!
# When a tree has code

A tree that was read from a document has no operator without a meaning and no missing
statement, and resolving keeps it so. Compiling such a tree can fail in one way only: an
assignment to something that is neither a variable nor an array element.
-/

open List

namespace TreeMachine.Tree

def Function.Defined (f : Function) : Prop :=
  ∀ b ∈ f.body, Stmt.DefinedAll b.stmts

/-! ### Targets of assignments -/

/-- An expression that can be assigned to: a variable or an array element. -/
def Expr.isTarget : Expr → Bool
  | .ident _ => true
  | .index .. => true
  | _ => false

mutual

/-- Every assignment in a statement has a target. -/
def Stmt.Assignable : Stmt → Prop
  | .block _ _ ss => Stmt.AssignableAll ss
  | .assign _ target _ => target.isTarget = true
  | .branch _ _ yes none => yes.Assignable
  | .branch _ _ yes (some no) => yes.Assignable ∧ no.Assignable
  | .loop _ _ body => body.Assignable
  | _ => True

/-- Every assignment in statements has a target. -/
def Stmt.AssignableAll : List Stmt → Prop
  | [] => True
  | s :: ss => s.Assignable ∧ Stmt.AssignableAll ss

end

/-- Every assignment in a function has a target. -/
def Function.Assignable (f : Function) : Prop :=
  ∀ b ∈ f.body, Stmt.AssignableAll b.stmts

/-- Every assignment in a program has a target. -/
def Program.Assignable (p : Program) : Prop :=
  ∀ f ∈ p.functions, f.Assignable

/-! ### Resolving keeps trees defined -/

mutual

lemma Expr.defined_bound {scopes : List Scope} : (e : Expr) → e.Defined → (e.bound scopes).Defined
  | .int _ _, _ | .bool _ _, _ | .string _ _, _ | .ident _, _ => trivial
  | .index _ _ array idx, h => ⟨array.defined_bound h.1, idx.defined_bound h.2⟩
  | .binary _ _ _ left right, h => ⟨h.1, left.defined_bound h.2.1, right.defined_bound h.2.2⟩
  | .unary _ _ _ x, h => ⟨h.1, x.defined_bound h.2⟩
  | .call _ _ _ args, h => by
    rw [Expr.bound, Expr.Defined]
    exact Expr.definedAll_bound args h

lemma Expr.definedAll_bound {scopes : List Scope} :
    (es : List Expr) → Expr.DefinedAll es → Expr.DefinedAll (Expr.boundAll scopes es)
  | [], _ => trivial
  | e :: es, h => ⟨e.defined_bound h.1, Expr.definedAll_bound es h.2⟩

end

mutual

lemma Stmt.defined_bound {inner outer n} : (s : Stmt) → s.Defined → (s.bound inner outer n).Defined
  | .block _ _ ss, h => by
    rw [Stmt.bound, Stmt.Defined]
    exact Stmt.definedAll_bound ss h
  | .var _ _ _ none, _ => trivial
  | .var _ _ _ (some x), h => x.defined_bound h
  | .array _ _ _ sizes elements, h =>
    ⟨Expr.definedAll_bound sizes h.1, Expr.definedAll_bound elements h.2⟩
  | .assign _ target value, h => ⟨target.defined_bound h.1, value.defined_bound h.2⟩
  | .multi _ _ _ _ _ args, h => Expr.definedAll_bound args h
  | .branch _ cond yes none, h => ⟨cond.defined_bound h.1, yes.defined_bound h.2⟩
  | .branch _ cond yes (some no), h =>
    ⟨cond.defined_bound h.1, yes.defined_bound h.2.1, no.defined_bound h.2.2⟩
  | .loop _ cond body, h => ⟨cond.defined_bound h.1, body.defined_bound h.2⟩
  | .ret _ values, h => Expr.definedAll_bound values h
  | .expr _ x, h => x.defined_bound h
  | .missing, h => h

lemma Stmt.definedAll_bound {inner outer n} :
    (ss : List Stmt) → Stmt.DefinedAll ss → Stmt.DefinedAll (Stmt.boundAll inner outer n ss)
  | [], _ => trivial
  | s :: ss, h => ⟨s.defined_bound h.1, Stmt.definedAll_bound ss h.2⟩

end

lemma Function.defined_bound {outer n} {f : Function} (h : f.Defined) :
    (f.bound outer n).Defined := by
  rintro _ ⟨⟩
  refine Stmt.definedAll_bound f.stmts ?_
  rw [Function.stmts]
  cases hb : f.body with
  | none => trivial
  | some b => exact h b hb

lemma defined_of_resolve {p q : Program} (hd : ∀ f ∈ p.functions, f.Defined)
    (h : p.resolve = .ok q) : ∀ f ∈ q.functions, f.Defined := by
  obtain ⟨-, rfl⟩ := ((makes_program p).eq_ok_iff q).1 h
  intro f hf
  obtain ⟨g, n, hg, rfl⟩ := Function.mem_boundAll hf
  exact Function.defined_bound (hd g hg)

end TreeMachine.Tree

/-! ### Trees of documents -/

namespace TreeMachine.Document

open TreeMachine.Tree

lemma defined_of_functionsOf {file rs fs} (h : functionsOf file rs = .ok fs) : ∀ f ∈ fs,
    f.Defined := by
  induction rs generalizing fs with
  | nil =>
    cases h
    simp
  | cons r rs ih =>
    cases r with
    | none => cases h
    | some r =>
      obtain ⟨f, hf, h⟩ := Except.bind_eq_ok h
      obtain ⟨rest, hrest, h⟩ := Except.bind_eq_ok h
      cases h
      obtain ⟨params, -, hf⟩ := Except.bind_eq_ok hf
      obtain ⟨returns, -, hf⟩ := Except.bind_eq_ok hf
      obtain ⟨ss, hss, hf⟩ := Except.bind_eq_ok hf
      cases hf
      refine forall_mem_cons.2 ⟨?_, ih hrest⟩
      rintro _ ⟨⟩
      exact (gives_stmtsOf file _).2 _ (Error.of_wrap_eq_ok hss)

/-- A program that was loaded is a resolved one, and defined. -/
lemma of_load {text file : String} {q : Program} (h : load text file = .ok q) :
    (∃ p : Program, p.resolve = .ok q) ∧ ∀ f ∈ q.functions, f.Defined := by
  unfold load at h
  split at h
  · cases h
  · obtain ⟨_, -, h⟩ := Except.bind_eq_ok h
    obtain ⟨fs, hfs, h⟩ := Except.bind_eq_ok h
    exact ⟨⟨_, h⟩, defined_of_resolve (defined_of_functionsOf hfs) h⟩

end TreeMachine.Document

/-! ### Code of resolved trees -/

namespace TreeMachine.Structured.Compile

open TreeMachine.Tree

section

variable {α β : Type}

def Succeeds (fin : α → Compiling → Prop) (r : Except Error (α × Compiling)) : Prop :=
  ∃ x c, r = .ok (x, c) ∧ fin x c

def Refuses (r : Except Error (α × Compiling)) : Prop :=
  ∃ what span, r = .error (.fault (.unsupportedNode what) span)

/-- A computation succeeds if something holds, and otherwise refuses. -/
def Yields (good : Prop) (fin : α → Compiling → Prop) (r : Except Error (α × Compiling)) : Prop :=
  (good → Succeeds fin r) ∧ (¬good → Refuses r)

lemma Succeeds.pure {fin x c} (h : fin x c) : Succeeds fin ((Pure.pure x : Compile α) c) :=
  ⟨x, c, rfl, h⟩

lemma Succeeds.bind {fin : α → Compiling → Prop} {fin' : β → Compiling → Prop}
    {m : Compile α} {f : α → Compile β} {c : Compiling} (h : Succeeds fin (m c))
    (hf : ∀ {x c'}, fin x c' → Succeeds fin' (f x c')) : Succeeds fin' ((m >>= f) c) := by
  obtain ⟨x, c', hm, hx⟩ := h
  obtain ⟨y, c'', hy, hfin⟩ := hf hx
  refine ⟨y, c'', ?_, hfin⟩
  show (m c >>= fun p => f p.1 p.2) = _
  rw [hm]
  exact hy

lemma Succeeds.yields {fin : α → Compiling → Prop} {r : Except Error (α × Compiling)}
    {good : Prop} (h : Succeeds fin r) (hg : good) : Yields good fin r :=
  ⟨fun _ => h, fun hn => absurd hg hn⟩

lemma Yields.bind {good good' : Prop} {fin : α → Compiling → Prop}
    {fin' : β → Compiling → Prop} {m : Compile α} {f : α → Compile β} {c : Compiling}
    (h : Yields good fin (m c)) (hf : ∀ {x c'}, fin x c' → Yields good' fin' (f x c')) :
    Yields (good ∧ good') fin' ((m >>= f) c) := by
  constructor
  · rintro ⟨hg, hg'⟩
    exact (h.1 hg).bind fun hx => (hf hx).1 hg'
  · intro hn
    by_cases hg : good
    · obtain ⟨x, c', hm, hx⟩ := h.1 hg
      obtain ⟨what, span, hr⟩ := (hf hx).2 fun hg' => hn ⟨hg, hg'⟩
      refine ⟨what, span, ?_⟩
      show (m c >>= fun p => f p.1 p.2) = _
      rw [hm]
      exact hr
    · obtain ⟨what, span, hr⟩ := h.2 hg
      refine ⟨what, span, ?_⟩
      show (m c >>= fun p => f p.1 p.2) = _
      rw [hr]
      rfl

lemma Succeeds.andThen {good : Prop} {fin : α → Compiling → Prop}
    {fin' : β → Compiling → Prop} {m : Compile α} {f : α → Compile β} {c : Compiling}
    (h : Succeeds fin (m c)) (hf : ∀ {x c'}, fin x c' → Yields good fin' (f x c')) :
    Yields good fin' ((m >>= f) c) := by
  have hy := (h.yields trivial).bind hf
  rwa [true_and] at hy

lemma Yields.andPure {good : Prop} {fin : α → Compiling → Prop} {fin' : β → Compiling → Prop}
    {m : Compile α} {f : α → Compile β} {c : Compiling} (h : Yields good fin (m c))
    (hf : ∀ {x c'}, fin x c' → Succeeds fin' (f x c')) : Yields good fin' ((m >>= f) c) := by
  have hy := h.bind fun hx => (hf hx).yields trivial
  rwa [and_true] at hy

end

/-- The declarations that were seen have registers. -/
def Covers (c : Compiling) (seen : List Nat) : Prop :=
  ∀ n ∈ seen, ∃ reg, c.bound.lookup n = some reg

/-- The registers of declarations are as they were. -/
def Steady {α : Type} (c : Compiling) (_ : α) (c' : Compiling) : Prop :=
  c'.bound = c.bound

lemma Covers.steady {c c' : Compiling} {seen : List Nat} (h : Covers c seen)
    (hs : c'.bound = c.bound) : Covers c' seen := by
  unfold Covers
  rw [hs]
  exact h

lemma Covers.declared {c seen sym n} (h : Covers c seen) (hn : sym.id = n) :
    Covers (declared c sym) (n :: seen) := by
  subst hn
  intro m hm
  by_cases heq : m = sym.id
  · subst heq
    exact ⟨_, lookup_cons_self⟩
  · obtain ⟨reg, hreg⟩ := h m ((mem_cons.1 hm).resolve_left heq)
    refine ⟨reg, ?_⟩
    show List.lookup m ((sym.id, _) :: c.bound) = _
    rw [lookup_cons, beq_false_of_ne heq]
    exact hreg

section

variable {scopes : List Scope} {trap : String} {seen : List Nat} {callee : String → Prop}
  {c : Compiling}

lemma succeeds_registerOf {id : Ident} (hid : id.Resolved seen) (hc : Covers c seen) :
    Succeeds (Steady c) (registerOf scopes id c) := by
  obtain ⟨sym, hsym, hseen⟩ := hid
  obtain ⟨reg, hreg⟩ := hc sym.id hseen
  refine ⟨.temp reg, c, ?_, rfl⟩
  unfold registerOf
  simp only [hsym, Option.some_or]
  have hget : ∀ k : Compiling → Compile Expr, (get >>= k) c = k c c := fun _ => rfl
  rw [hget, hreg]
  rfl

/-- Both forms of an expression's code exist. -/
structure Total (scopes : List Scope) (trap : String) (seen : List Nat) (e : Tree.Expr) : Prop where
  value : ∀ {c}, Covers c seen → Succeeds (Steady c) ((expr scopes trap e).value c)
  branch : ∀ yes no {c}, Covers c seen → Succeeds (Steady c) ((expr scopes trap e).branch yes no c)

lemma total_of_value {e value} (he : expr scopes trap e = .ofValue value)
    (hv : ∀ {c}, Covers c seen → Succeeds (Steady c) (value c)) : Total scopes trap seen e := by
  refine ⟨fun hc => by rw [he]; exact hv hc, fun yes no c hc => ?_⟩
  rw [he]
  exact (hv hc).bind fun hs => .pure hs

lemma total_of_branch {e branch} (he : expr scopes trap e = .ofBranch branch)
    (hb : ∀ yes no {c}, Covers c seen → Succeeds (Steady c) (branch yes no c)) :
    Total scopes trap seen e := by
  refine ⟨fun {c} hc => ?_, fun yes no c hc => by rw [he]; exact hb yes no hc⟩
  rw [he]
  simp only [Code.ofBranch, materialize, newTemp_bind, newLabel_bind]
  refine (hb _ _ (c := { c with temps := c.temps + 1, labels := c.labels + 1 + 1 }) hc).bind ?_
  exact fun hs => .pure hs

lemma succeeds_boundsCheck {array idx : Compile Expr}
    (ha : ∀ {c}, Covers c seen → Succeeds (Steady c) (array c))
    (hi : ∀ {c}, Covers c seen → Succeeds (Steady c) (idx c)) (hc : Covers c seen) :
    Succeeds (Steady c) (boundsCheck trap array idx c) := by
  refine (ha hc).bind fun hs => ?_
  refine (hi (hc.steady hs)).bind fun hs' => ?_
  exact ⟨_, _, rfl, hs'.trans hs⟩

lemma total_two {left right make}
    (hl : ∀ yes no {c}, Covers c seen → Succeeds (Steady c) (left.branch yes no c))
    (hr : ∀ yes no {c}, Covers c seen → Succeeds (Steady c) (right.branch yes no c))
    (hm : make = branchAnd left right ∨ make = branchOr left right) :
    ∀ yes no {c}, Covers c seen → Succeeds (Steady c) (make yes no c) := by
  intro yes no c hc
  rcases hm with rfl | rfl
  all_goals
    simp only [branchAnd, branchOr, newLabel_bind]
    refine (hl _ _ (c := { c with labels := c.labels + 1 }) hc).bind fun {_ c'} hs => ?_
    refine (hr _ _ (c := c') (hc.steady hs)).bind fun hs' => ?_
    exact .pure (hs'.trans hs)

lemma wordOp_of_defined {op : BinaryOp} (hand : op ≠ .logAnd) (hor : op ≠ .logOr)
    (hd : ∀ n, op ≠ .undefined n) : ∃ wop, wordOp op = some wop := by
  cases op <;> simp_all [wordOp]

lemma wordUnOp_of_defined {op : UnaryOp} (hnot : op ≠ .logNot) (hd : ∀ n, op ≠ .undefined n) :
    ∃ wop, wordUnOp op = some wop := by
  cases op <;> simp_all [wordUnOp]

mutual

lemma total_expr (scopes : List Scope) (trap : String) :
    (e : Tree.Expr) → e.Resolved callee seen → e.Defined → Total scopes trap seen e
  | .int _ _, _, _ => total_of_value rfl fun _ => .pure rfl
  | .bool _ _, _, _ => ⟨fun _ => .pure rfl, fun _ _ _ _ => .pure rfl⟩
  | .string _ _, _, _ => total_of_value rfl fun _ => ⟨_, _, rfl, rfl⟩
  | .ident id, hr, _ => total_of_value rfl fun hc => succeeds_registerOf hr hc
  | .index _ _ array idx, hr, hd => by
    have ha := total_expr scopes trap array hr.1 hd.1
    have hi := total_expr scopes trap idx hr.2 hd.2
    refine total_of_value rfl fun hc => ?_
    exact (succeeds_boundsCheck ha.value hi.value hc).bind fun hs => .pure hs
  | .binary _ _ op left right, hr, hd => by
    have hl := total_expr scopes trap left hr.1 hd.2.1
    replace hr := total_expr scopes trap right hr.2 hd.2.2
    by_cases hand : op = .logAnd
    · subst hand
      exact total_of_branch rfl (total_two hl.branch hr.branch (.inl rfl))
    by_cases hor : op = .logOr
    · subst hor
      exact total_of_branch rfl (total_two hl.branch hr.branch (.inr rfl))
    obtain ⟨wop, hop⟩ := wordOp_of_defined hand hor hd.1
    refine total_of_value (expr_binary hand hor) fun hc => ?_
    rw [hop]
    refine (hl.value hc).bind fun hs => ?_
    refine (hr.value (hc.steady hs)).bind fun hs' => ?_
    exact .pure (hs'.trans hs)
  | .unary _ _ op x, hr, hd => by
    have hx := total_expr scopes trap x hr hd.2
    by_cases hnot : op = .logNot
    · subst hnot
      exact total_of_branch rfl fun yes no _ hc => hx.branch no yes hc
    obtain ⟨wop, hop⟩ := wordUnOp_of_defined hnot hd.1
    refine total_of_value (expr_unary hnot) fun hc => ?_
    rw [hop]
    exact (hx.value hc).bind fun hs => .pure hs
  | .call _ _ func args, hr, hd => total_of_value rfl fun hc =>
    (succeeds_values scopes trap args hr.2 hd hc).bind fun hs => .pure hs

lemma succeeds_values (scopes : List Scope) (trap : String) {c} : (es : List Tree.Expr) →
    Tree.Expr.ResolvedAll callee seen es → Tree.Expr.DefinedAll es → Covers c seen →
    Succeeds (Steady c) (values scopes trap es c)
  | [], _, _, _ => .pure rfl
  | e :: es, hr, hd, hc => by
    refine ((total_expr scopes trap e hr.1 hd.1).value hc).bind fun hs => ?_
    refine (succeeds_values scopes trap es hr.2 hd.2 (hc.steady hs)).bind fun hs' => ?_
    exact .pure (hs'.trans hs)

end

lemma succeeds_allocArray {size : Expr} {rest : List Expr} :
    Succeeds (Steady c) (allocArray size rest c) := by
  induction rest generalizing size c with
  | nil => exact ⟨_, _, rfl, rfl⟩
  | cons inner rest ih =>
    simp only [allocArray, newTemp_bind, newLabel_bind]
    refine Succeeds.bind ih fun {x _} hs => ?_
    obtain ⟨alloc, row⟩ := x
    exact .pure hs

lemma succeeds_sizeMoves {es : List Tree.Expr} (hr : Tree.Expr.ResolvedAll callee seen es)
    (hd : Tree.Expr.DefinedAll es) (hc : Covers c seen) :
    Succeeds (Steady c) (sizeMoves scopes trap es c) := by
  induction es generalizing c with
  | nil => exact .pure rfl
  | cons e es ih =>
    refine ((total_expr scopes trap e hr.1 hd.1).value hc).bind fun {_ c'} hs => ?_
    simp only [newTemp_bind]
    refine (ih hr.2 hd.2 (c := { c' with temps := c'.temps + 1 }) (hc.steady hs)).bind
      fun {x _} hs' => ?_
    obtain ⟨moves, ts⟩ := x
    exact .pure (hs'.trans hs)

lemma succeeds_declaredArray {sizes elements : List Tree.Expr}
    (hz : Tree.Expr.ResolvedAll callee seen sizes) (hdz : Tree.Expr.DefinedAll sizes)
    (he : Tree.Expr.ResolvedAll callee seen elements) (hde : Tree.Expr.DefinedAll elements)
    (hc : Covers c seen) :
    Succeeds (Steady c) (declaredArray scopes trap sizes elements c) := by
  refine (succeeds_sizeMoves hz hdz hc).bind fun {x c'} hs => ?_
  obtain ⟨moves, _ | ⟨size, rest⟩⟩ := x
  · refine (succeeds_values scopes trap elements he hde (hc.steady hs)).bind fun hs' => ?_
    exact ⟨_, _, rfl, hs'.trans hs⟩
  · refine succeeds_allocArray.bind fun {y _} hs' => ?_
    obtain ⟨alloc, ref⟩ := y
    exact .pure (hs'.trans hs)

lemma succeeds_resultMoves {ids : List Ident} {i : Nat} (hr : ∀ id ∈ ids, id.Resolved seen)
    (hc : Covers c seen) : Succeeds (Steady c) (resultMoves scopes i ids c) := by
  induction ids generalizing i c with
  | nil => exact .pure rfl
  | cons id ids ih =>
    obtain ⟨hid, hids⟩ := forall_mem_cons.1 hr
    refine (succeeds_registerOf hid hc).bind fun hs => ?_
    refine (ih hids (hc.steady hs)).bind fun hs' => ?_
    exact .pure (hs'.trans hs)

lemma succeeds_declare {scope outer name span sym n} (hf : scope.find? name = some sym)
    (hn : sym.id = n) (hc : Covers c seen) :
    Succeeds (fun _ c' => Covers c' (n :: seen)) (declare (scope :: outer) name span c) := by
  refine ⟨registerFor c sym, declared c sym, ?_, hc.declared hn⟩
  simp only [declare, List.head?_cons, Option.bind_some, hf, bind_eq]

lemma yields_assignment {span : Span} {target value : Tree.Expr}
    (ht : target.Resolved callee seen) (hdt : target.Defined) (hv : value.Resolved callee seen)
    (hdv : value.Defined) (hc : Covers c seen) :
    Yields (target.isTarget = true) (Steady c)
      (assignment scopes trap span target (expr scopes trap value).value c) := by
  have hval := total_expr scopes trap value hv hdv
  cases target with
  | ident id =>
    refine Succeeds.yields ?_ rfl
    refine (succeeds_registerOf ht hc).bind fun hs => ?_
    exact (hval.value (hc.steady hs)).bind fun hs' => .pure (hs'.trans hs)
  | index ispan type array idx =>
    refine Succeeds.yields ?_ rfl
    have ha := total_expr scopes trap array ht.1 hdt.1
    have hi := total_expr scopes trap idx ht.2 hdt.2
    refine (succeeds_boundsCheck ha.value hi.value hc).bind fun {x _} hs => ?_
    obtain ⟨check, addr⟩ := x
    exact (hval.value (hc.steady hs)).bind fun hs' => .pure (hs'.trans hs)
  | _ => exact ⟨fun h => absurd h (by simp [Tree.Expr.isTarget]), fun _ => ⟨_, _, rfl⟩⟩

end

section

variable {callee : String → Prop}

mutual

/-- A resolved statement has code exactly if its assignments have targets. -/
lemma yields_stmt (trap : String) {scope outer seen n seen' n' c} : (s : Tree.Stmt) →
    Tree.Stmt.Resolved callee scope seen n s seen' n' → s.Defined → Covers c seen →
    Yields s.Assignable (fun _ c' => Covers c' seen') (stmt (scope :: outer) trap s c)
  | .block _ _ ss, .block hr, hd, hc => by
    refine Yields.andPure (yields_stmts trap ss hr hd hc) fun hcov => .pure ?_
    exact fun m hm => hcov m (Tree.subset_of_stmts hr hm)
  | .var _ _ _ none, .declare hf hn, _, hc => by
    refine Succeeds.yields ?_ trivial
    exact (succeeds_declare hf hn hc).bind fun h => .pure h
  | .var _ _ _ (some x), .var hx hf hn, hd, hc => by
    refine Succeeds.yields ?_ trivial
    refine ((total_expr _ trap x hx hd).value hc).bind fun hs => ?_
    exact (succeeds_declare hf hn (hc.steady hs)).bind fun h => .pure h
  | .array _ _ _ sizes elements, .array hz he hf hn, hd, hc => by
    refine Succeeds.yields ?_ trivial
    refine (succeeds_declaredArray hz hd.1 he hd.2 hc).bind fun {x _} hs => ?_
    obtain ⟨alloc, ref⟩ := x
    exact (succeeds_declare hf hn (hc.steady hs)).bind fun h => .pure h
  | .assign _ target value, .assign ht hv, hd, hc => by
    refine (yields_assignment ht hd.1 hv hd.2 hc).andPure fun hs => ?_
    exact .pure (hc.steady hs)
  | .multi _ targets _ _ func args, .multi _ ha ht, hd, hc => by
    refine Succeeds.yields ?_ trivial
    refine (succeeds_values _ trap args ha hd hc).bind fun hs => ?_
    refine (succeeds_resultMoves ht (hc.steady hs)).bind fun hs' => ?_
    exact .pure (hc.steady (hs'.trans hs))
  | .branch _ cond yes none, .ifThen hcond hy, hd, hc => by
    simp only [stmt, newLabel_bind]
    refine ((total_expr _ trap cond hcond hd.1).branch _ _
      (c := { c with labels := c.labels + 1 + 1 }) hc).andThen fun hs => ?_
    refine (yields_stmt trap yes hy hd.2 (hc.steady hs)).andPure fun h => ?_
    exact .pure h
  | .branch _ cond yes (some no), .ifElse hcond hy hn, hd, hc => by
    simp only [stmt, newLabel_bind]
    refine ((total_expr _ trap cond hcond hd.1).branch _ _
      (c := { c with labels := c.labels + 1 + 1 + 1 }) hc).andThen fun hs => ?_
    refine (yields_stmt trap yes hy hd.2.1 (hc.steady hs)).bind fun h => ?_
    exact (yields_stmt trap no hn hd.2.2 h).andPure fun h' => .pure h'
  | .loop _ cond body, .loop hcond hb, hd, hc => by
    simp only [stmt, newLabel_bind]
    refine ((total_expr _ trap cond hcond hd.1).branch _ _
      (c := { c with labels := c.labels + 1 + 1 + 1 }) hc).andThen fun hs => ?_
    refine (yields_stmt trap body hb hd.2 (hc.steady hs)).andPure fun h => ?_
    exact .pure h
  | .ret _ values, .ret hv, hd, hc => by
    refine Succeeds.yields ?_ trivial
    exact (succeeds_values _ trap values hv hd hc).bind fun hs => .pure (hc.steady hs)
  | .expr _ x, .expr hx, hd, hc => by
    refine Succeeds.yields ?_ trivial
    exact ((total_expr _ trap x hx hd).value hc).bind fun hs => .pure (hc.steady hs)

lemma yields_stmts (trap : String) {scope outer seen n seen' n' c} : (ss : List Tree.Stmt) →
    Tree.Stmts.Resolved callee scope seen n ss seen' n' → Tree.Stmt.DefinedAll ss → Covers c seen →
    Yields (Tree.Stmt.AssignableAll ss) (fun _ c' => Covers c' seen') (stmts (scope :: outer) trap
      ss c)
  | [], .nil, _, hc => Succeeds.yields (.pure hc) trivial
  | s :: ss, .cons hs hss, hd, hc => by
    refine (yields_stmt trap s hs hd.1 hc).bind fun h => ?_
    exact (yields_stmts trap ss hss hd.2 h).andPure fun h' => .pure h'

end

lemma succeeds_paramMoves {params outer ps i n n' seen ids c}
    (hr : Tree.ParamsResolved params seen n ps ids n') (hc : Covers c seen) :
    Succeeds (fun _ c' => Covers c' ids) (paramMoves (params :: outer) i ps c) := by
  induction hr generalizing i c with
  | nil => exact .pure hc
  | cons hf hn _ ih =>
    refine (succeeds_declare hf hn hc).bind fun h => ?_
    refine (ih h).bind fun {x _} h' => ?_
    obtain ⟨regs, moves⟩ := x
    exact .pure h'

lemma yields_function (outer : List Scope) {f n n' c} (hr : f.Resolved callee n n')
    (hd : f.Defined) :
    Yields f.Assignable (fun _ _ => True) (function outer f c) := by
  obtain @⟨params, scope, span, ss, ids, n1, seen, hp, hb, hparams, hss⟩ := hr
  have hiff : f.Assignable ↔ Tree.Stmt.AssignableAll ss := by
    simp [Tree.Function.Assignable, hb]
  rw [hiff]
  unfold function
  simp only [hp, hb]
  have hinit : Succeeds (fun _ c' => Covers c' []) ((modify fun c : Compiling =>
    { c with bound := [], used := [], traps := false } : Compile PUnit) c) :=
    ⟨_, _, rfl, by simp [Covers]⟩
  refine hinit.andThen fun hc => ?_
  refine (succeeds_paramMoves hparams hc).andThen fun {x _} h => ?_
  obtain ⟨regs, moves⟩ := x
  refine (yields_stmts _ _ hss (hd _ hb) h).andPure fun _ => ?_
  exact ⟨_, _, rfl, trivial⟩

lemma code_of_wrap {α : Type} (context : String) {r : Except Error (α × Compiling)}
    (h : Refuses r) :
    ∃ e, Error.wrap context r = .error e ∧ e.code = "UNSUPPORTED_NODE" := by
  obtain ⟨what, span, rfl⟩ := h
  exact ⟨_, rfl, rfl⟩

lemma yields_functions (outer : List Scope) {fs n c} (hr : Tree.Functions.Resolved callee n fs)
    (hd : ∀ f ∈ fs, f.Defined) :
    ((∀ f ∈ fs, f.Assignable) → ∃ gs, functions outer fs c = .ok gs) ∧ ((¬∀ f ∈ fs, f.Assignable) →
        ∃ e, functions outer fs c = .error e ∧ e.code = "UNSUPPORTED_NODE") := by
  induction hr generalizing c with
  | nil => exact ⟨fun _ => ⟨[], rfl⟩, fun h => absurd (by simp) h⟩
  | @cons n f fs n' hf _ ih =>
    obtain ⟨hdf, hdfs⟩ := forall_mem_cons.1 hd
    have hy := yields_function outer (c := c) hf hdf
    rw [forall_mem_cons]
    unfold functions
    by_cases hg : f.Assignable
    · obtain ⟨g, c', hfun, -⟩ := hy.1 hg
      have hrun : (function outer f).run c = .ok (g, c') := hfun
      obtain ⟨hok, hno⟩ := ih (c := c') hdfs
      rw [hrun]
      constructor
      · rintro ⟨-, hgs⟩
        obtain ⟨gs, hgs⟩ := hok hgs
        refine ⟨g :: gs, ?_⟩
        show (functions outer fs c' >>= fun gs => Pure.pure (g :: gs)) = _
        rw [hgs]
        rfl
      · intro hn
        obtain ⟨e, he, hcode⟩ := hno fun hgs => hn ⟨hg, hgs⟩
        refine ⟨e, ?_, hcode⟩
        show (functions outer fs c' >>= fun gs => Pure.pure (g :: gs)) = _
        rw [he]
        rfl
    · refine ⟨fun h => absurd h.1 hg, fun _ => ?_⟩
      obtain ⟨e, he, hcode⟩ := code_of_wrap s!"function {f.name}" (hy.2 hg)
      have hrun : Error.wrap s!"function {f.name}" ((function outer f).run c) = .error e := he
      exact ⟨e, by rw [hrun]; rfl, hcode⟩

end

end TreeMachine.Structured.Compile

namespace TreeMachine.Structured

/-- A loaded program has code exactly if its assignments have targets; otherwise it is refused. -/
lemma ofTree_of_load {text file : String} {q : Tree.Program} (h : Document.load text file = .ok q) :
    (q.Assignable → ∃ u, CodeUnit.ofTree q = .ok u) ∧
      (¬q.Assignable → ∃ e, CodeUnit.ofTree q = .error e ∧ e.code = "UNSUPPORTED_NODE") := by
  obtain ⟨⟨p, hp⟩, hd⟩ := Document.of_load h
  obtain ⟨n, hr⟩ : ∃ n, Tree.Functions.Resolved (fun _ => True) n q.functions :=
    Tree.resolved_of_resolve hp fun _ _ => trivial
  obtain ⟨⟨scope, m⟩, -, hq⟩ := Except.bind_eq_ok hp
  obtain ⟨fs, -, hq⟩ := Except.bind_eq_ok hq
  cases hq
  obtain ⟨hok, hno⟩ := Compile.yields_functions [scope, Tree.Scope.outermost] (c := {}) hr hd
  constructor
  · intro hg
    obtain ⟨gs, hgs⟩ := hok hg
    exact ⟨_, by simp only [CodeUnit.ofTree, hgs, bind, Except.bind]; rfl⟩
  · intro hn
    obtain ⟨e, he, hcode⟩ := hno hn
    exact ⟨e, by simp [CodeUnit.ofTree, he, bind, Except.bind], hcode⟩

end TreeMachine.Structured
