import TreeMachine.Proofs.Inversion
import TreeMachine.Proofs.Names
import TreeMachine.Structured.OfTree

/-!
# What compiling a tree gives

The compiler is a computation with counters. Here its successes are described by rules, one
for each form of the tree: which code a form has, given the code of its parts, and how the
counters go on. Everything that later modules say about compiled code goes by these rules.
-/

namespace TreeMachine.Structured.Compile

open TreeMachine.Tree
open TreeMachine.StateT (pure_eq_ok bind_pure_eq_ok ok_of_bind)

/-! ### Names -/

/-- Whether a declaration cannot have its own name as its register. -/
def clashes (c : Compiling) (sym : Symbol) : Bool :=
  c.used.contains sym.name || isConventionReg sym.name

def registerFor (c : Compiling) (sym : Symbol) : String :=
  if clashes c sym then numbered sym.name (c.temps + 1) else sym.name

def declared (c : Compiling) (sym : Symbol) : Compiling :=
  { c with
    temps := if clashes c sym then c.temps + 1 else c.temps
    used := registerFor c sym :: c.used
    bound := (sym.id, registerFor c sym) :: c.bound }

@[simp] lemma declared_labels (c : Compiling) (sym : Symbol) :
    (declared c sym).labels = c.labels := rfl

@[simp] lemma declared_traps (c : Compiling) (sym : Symbol) :
    (declared c sym).traps = c.traps := rfl

def Register (scopes : List Scope) (c : Compiling) (id : Ident) (reg : String) : Prop :=
  ∃ sym, id.symbol.or (Scope.lookup scopes id.name) = some sym ∧
    c.bound.lookup sym.id = some reg

section

variable {scopes : List Scope} {c c' : Compiling}

lemma newLabel_bind {α : Type} (hint : String) (f : String → Compile α) (c : Compiling) :
    (newLabel hint >>= f) c =
      f (numbered hint (c.labels + 1)) { c with labels := c.labels + 1 } := rfl

lemma newTemp_bind {α : Type} (hint : String) (f : Expr → Compile α) (c : Compiling) :
    (newTemp hint >>= f) c =
      f (.temp (numbered hint (c.temps + 1))) { c with temps := c.temps + 1 } := rfl

lemma bind_eq (sym : Symbol) (c : Compiling) :
    Compile.bind sym c = .ok (registerFor c sym, declared c sym) := by
  show Except.ok _ = Except.ok _
  simp only [registerFor, declared, clashes, numbered]
  by_cases h : (c.used.contains sym.name || isConventionReg sym.name) = true
  · simp only [h, if_true]
  · simp only [Bool.not_eq_true] at h
    simp only [h, Bool.false_eq_true, if_false]

lemma of_registerOf {id : Ident} {x : Expr} (h : registerOf scopes id c = .ok (x, c')) :
    c' = c ∧ ∃ reg, Register scopes c id reg ∧ x = .temp reg := by
  unfold registerOf at h
  cases hs : id.symbol.or (Scope.lookup scopes id.name) with
  | none => simp only [hs] at h; cases h
  | some sym =>
    simp only [hs] at h
    obtain ⟨c1, c2, hget, h⟩ := ok_of_bind h
    obtain ⟨rfl, rfl⟩ : c = c1 ∧ c = c2 := by cases hget; exact ⟨rfl, rfl⟩
    cases hl : c.bound.lookup sym.id with
    | none => simp only [hl] at h; cases h
    | some reg =>
      simp only [hl] at h
      cases h
      exact ⟨rfl, reg, ⟨sym, hs, hl⟩, rfl⟩

lemma of_declare (h : declare scopes name span c = .ok (reg, c')) :
    ∃ sym, scopes.head?.bind (·.find? name) = some sym ∧ reg = registerFor c sym ∧
      c' = declared c sym := by
  unfold declare at h
  cases hs : scopes.head?.bind (·.find? name) with
  | none => simp only [hs] at h; cases h
  | some sym =>
    simp only [hs, bind_eq] at h
    cases h
    exact ⟨sym, rfl, rfl, rfl⟩

end

/-! ### Shapes of code -/

def literalCode (base : Expr) (elements : List Expr) : Stmt :=
  .seq (.move base (malloc (.const (Int32.ofNat (elements.length + 1) * 4))) ::
    .move (.mem base) (.const (Int32.ofNat elements.length)) :: elementMoves base 0 elements)

/-- The code that checks an index: array and index go to registers. -/
def checkCode (a i array idx : Expr) (ok trap : String) : Stmt :=
  .seq [.move a array, .move i idx,
    .cjump (.binop .ult i (.mem (.binop .sub a word))) ok trap, .label ok]

/-- The address of an element whose array and index are in registers. -/
def elementAddr (a i : Expr) : Expr :=
  plus a (times word i)

def flagCode (t : Expr) (test : Stmt) (yes done : String) : Stmt :=
  .seq [.move t (.const 0), test, .label yes, .move t (.const 1), .label done]

/-- The code that allocates the rows of an array. -/
def rowsCode (size base ref j row : Expr) (begin body stop : String) (alloc : List Stmt) :
    List Stmt :=
  allocArray.header size base ref ++
    [.move j (.const 0), .label begin, .cjump (.binop .lt j size) body stop, .label body] ++
    alloc ++
    [.move (.mem (plus ref (times j word))) row, .move j (plus j (.const 1)), jumpTo begin,
      .label stop]

/-! ### Expressions -/

/-- Expressions whose value is made from a test. -/
def Logical : Tree.Expr → Prop
  | .binary _ _ .logAnd _ _ => True
  | .binary _ _ .logOr _ _ => True
  | .unary _ _ .logNot _ => True
  | _ => False

/-- Expressions whose test is the test of their value. -/
def Tested : Tree.Expr → Prop
  | .bool _ _ => False
  | .binary _ _ .logAnd _ _ => False
  | .binary _ _ .logOr _ _ => False
  | .unary _ _ .logNot _ => False
  | _ => True

mutual

/-- An expression has this code for its value; the counters go from `c` to `c'`. -/
inductive ValueOf (scopes : List Scope) (trap : String) :
    Tree.Expr → Compiling → Expr → Compiling → Prop where
  | int {span v c} : ValueOf scopes trap (.int span v) c (.const v) c
  | bool {span v c} : ValueOf scopes trap (.bool span v) c (.const (if v then 1 else 0)) c
  | string {span s c} :
    ValueOf scopes trap (.string span s) c
      (.eseq (literalCode (.temp (numbered "aB" (c.temps + 1)))
          (s.toList.map fun ch => .const (Utf8.codeOfChar ch)))
        (plus (.temp (numbered "aB" (c.temps + 1))) word))
      { c with temps := c.temps + 1 }
  | ident {id c reg} : Register scopes c id reg →
    ValueOf scopes trap (.ident id) c (.temp reg) c
  | index {span type array idx c xa ca xi ci} :
    ValueOf scopes trap array c xa ca → ValueOf scopes trap idx ca xi ci →
    ValueOf scopes trap (.index span type array idx) c
      (.eseq (checkCode (.temp (numbered "aA" (ci.temps + 1)))
          (.temp (numbered "aI" (ci.temps + 2))) xa xi
          (numbered "bounds.ok" (ci.labels + 1)) trap)
        (.mem (elementAddr (.temp (numbered "aA" (ci.temps + 1)))
          (.temp (numbered "aI" (ci.temps + 2))))))
      { ci with temps := ci.temps + 2, labels := ci.labels + 1, traps := true }
  | binary {span type op wop left right c xl cl xr cr} : wordOp op = some wop →
    ValueOf scopes trap left c xl cl → ValueOf scopes trap right cl xr cr →
    ValueOf scopes trap (.binary span type op left right) c (.binop wop xl xr) cr
  | unary {span type op wop x c v c'} : wordUnOp op = some wop →
    ValueOf scopes trap x c v c' →
    ValueOf scopes trap (.unary span type op x) c (.unop wop v) c'
  | flag {e c test c'} : Logical e →
    BranchOf scopes trap e (numbered "bool.true" (c.labels + 1))
      (numbered "bool.done" (c.labels + 2))
      { c with temps := c.temps + 1, labels := c.labels + 2 } test c' →
    ValueOf scopes trap e c
      (.eseq (flagCode (.temp (numbered "b" (c.temps + 1))) test
          (numbered "bool.true" (c.labels + 1)) (numbered "bool.done" (c.labels + 2)))
        (.temp (numbered "b" (c.temps + 1)))) c'
  | call {span type func args c xs c'} : ValuesOf scopes trap args c xs c' →
    ValueOf scopes trap (.call span type func args) c (.call (.name func) xs) c'

/-- An expression has this code as a test that goes to one of two labels. -/
inductive BranchOf (scopes : List Scope) (trap : String) :
    Tree.Expr → String → String → Compiling → Stmt → Compiling → Prop where
  | bool {span v yes no c} :
    BranchOf scopes trap (.bool span v) yes no c (jumpTo (if v then yes else no)) c
  | and {span type left right yes no c sl cl sr cr} :
    BranchOf scopes trap left (numbered "and.rhs" (c.labels + 1)) no
      { c with labels := c.labels + 1 } sl cl →
    BranchOf scopes trap right yes no cl sr cr →
    BranchOf scopes trap (.binary span type .logAnd left right) yes no c
      (.seq [sl, .label (numbered "and.rhs" (c.labels + 1)), sr]) cr
  | or {span type left right yes no c sl cl sr cr} :
    BranchOf scopes trap left yes (numbered "or.rhs" (c.labels + 1))
      { c with labels := c.labels + 1 } sl cl →
    BranchOf scopes trap right yes no cl sr cr →
    BranchOf scopes trap (.binary span type .logOr left right) yes no c
      (.seq [sl, .label (numbered "or.rhs" (c.labels + 1)), sr]) cr
  | not {span type x yes no c s c'} : BranchOf scopes trap x no yes c s c' →
    BranchOf scopes trap (.unary span type .logNot x) yes no c s c'
  | test {e yes no c x c'} : Tested e → ValueOf scopes trap e c x c' →
    BranchOf scopes trap e yes no c (.cjump x yes no) c'

/-- Expressions have this code for their values, in order. -/
inductive ValuesOf (scopes : List Scope) (trap : String) :
    List Tree.Expr → Compiling → List Expr → Compiling → Prop where
  | nil {c} : ValuesOf scopes trap [] c [] c
  | cons {e es c x c1 xs c2} : ValueOf scopes trap e c x c1 →
    ValuesOf scopes trap es c1 xs c2 → ValuesOf scopes trap (e :: es) c (x :: xs) c2

end

section

variable {scopes : List Scope} {trap : String}

/-- What is to be shown of the code of an expression. -/
structure ByRules (scopes : List Scope) (trap : String) (e : Tree.Expr) : Prop where
  value : ∀ {c x c'}, (expr scopes trap e).value c = .ok (x, c') → ValueOf scopes trap e c x c'
  branch : ∀ {yes no c s c'}, (expr scopes trap e).branch yes no c = .ok (s, c') →
    BranchOf scopes trap e yes no c s c'

lemma byRules_of_value (he : expr scopes trap e = .ofValue value) (ht : Tested e)
    (hv : ∀ {c x c'}, value c = .ok (x, c') → ValueOf scopes trap e c x c') :
    ByRules scopes trap e := by
  refine ⟨fun h => hv (by rwa [he] at h), fun h => ?_⟩
  rw [he] at h
  obtain ⟨x, hx, rfl⟩ := bind_pure_eq_ok h
  exact .test ht (hv hx)

lemma byRules_of_branch (he : expr scopes trap e = .ofBranch branch) (hl : Logical e)
    (hb : ∀ {yes no c s c'}, branch yes no c = .ok (s, c') → BranchOf scopes trap e yes no c s c') :
    ByRules scopes trap e := by
  refine ⟨fun h => ?_, fun h => hb (by rwa [he] at h)⟩
  rw [he] at h
  simp only [Code.ofBranch, materialize, newTemp_bind, newLabel_bind] at h
  obtain ⟨test, ht, rfl⟩ := bind_pure_eq_ok h
  exact .flag hl (hb ht)

lemma of_boundsCheck (h : boundsCheck trap array idx c = .ok (r, c')) :
    ∃ xa ca xi ci, array c = .ok (xa, ca) ∧ idx ca = .ok (xi, ci) ∧
      r = (checkCode (.temp (numbered "aA" (ci.temps + 1))) (.temp (numbered "aI" (ci.temps + 2)))
          xa xi (numbered "bounds.ok" (ci.labels + 1)) trap,
        elementAddr (.temp (numbered "aA" (ci.temps + 1))) (.temp (numbered "aI" (ci.temps + 2)))) ∧
      c' = { ci with temps := ci.temps + 2, labels := ci.labels + 1, traps := true } := by
  obtain ⟨xa, ca, ha, h⟩ := ok_of_bind h
  obtain ⟨xi, ci, hi, h⟩ := ok_of_bind h
  cases h
  exact ⟨xa, ca, xi, ci, ha, hi, rfl, rfl⟩

lemma of_branchAnd (h : branchAnd left right yes no c = .ok (s, c')) :
    ∃ sl cl sr, left.branch (numbered "and.rhs" (c.labels + 1)) no
        { c with labels := c.labels + 1 } = .ok (sl, cl) ∧ right.branch yes no cl = .ok (sr, c') ∧
      s = .seq [sl, .label (numbered "and.rhs" (c.labels + 1)), sr] := by
  simp only [branchAnd, newLabel_bind] at h
  obtain ⟨sl, cl, hl, h⟩ := ok_of_bind h
  obtain ⟨sr, hr, rfl⟩ := bind_pure_eq_ok h
  exact ⟨sl, cl, sr, hl, hr, rfl⟩

lemma of_branchOr (h : branchOr left right yes no c = .ok (s, c')) :
    ∃ sl cl sr, left.branch yes (numbered "or.rhs" (c.labels + 1))
        { c with labels := c.labels + 1 } = .ok (sl, cl) ∧ right.branch yes no cl = .ok (sr, c') ∧
      s = .seq [sl, .label (numbered "or.rhs" (c.labels + 1)), sr] := by
  simp only [branchOr, newLabel_bind] at h
  obtain ⟨sl, cl, hl, h⟩ := ok_of_bind h
  obtain ⟨sr, hr, rfl⟩ := bind_pure_eq_ok h
  exact ⟨sl, cl, sr, hl, hr, rfl⟩

lemma expr_binary (hand : op ≠ .logAnd) (hor : op ≠ .logOr) :
    expr scopes trap (.binary span type op left right) = .ofValue (
      match wordOp op with
      | none => throw (noEncoding op.text span)
      | some wop => do
        let l ← (expr scopes trap left).value
        let r ← (expr scopes trap right).value
        return .binop wop l r) := by
  cases op <;> first | rfl | contradiction

lemma expr_unary (hnot : op ≠ .logNot) :
    expr scopes trap (.unary span type op x) = .ofValue (
      match wordUnOp op with
      | none => throw (noEncoding op.text span)
      | some wop => do return .unop wop (← (expr scopes trap x).value)) := by
  cases op <;> first | rfl | contradiction

mutual

lemma byRules_expr (scopes : List Scope) (trap : String) : (e : Tree.Expr) → ByRules scopes trap e
  | .int span v => byRules_of_value rfl trivial fun h => by
    obtain ⟨rfl, rfl⟩ := pure_eq_ok h
    exact .int
  | .bool span v => by
    refine ⟨fun h => ?_, fun h => ?_⟩
    · obtain ⟨rfl, rfl⟩ := pure_eq_ok h
      exact .bool
    · obtain ⟨rfl, rfl⟩ := pure_eq_ok h
      exact .bool
  | .string span s => byRules_of_value rfl trivial fun h => by
    cases h
    exact .string
  | .ident id => byRules_of_value rfl trivial fun h => by
    obtain ⟨rfl, reg, hreg, rfl⟩ := of_registerOf h
    exact .ident hreg
  | .index span type array idx => byRules_of_value rfl trivial fun h => by
    obtain ⟨r, c1, hr, h⟩ := ok_of_bind h
    obtain ⟨xa, ca, xi, ci, ha, hi, rfl, rfl⟩ := of_boundsCheck hr
    obtain ⟨rfl, rfl⟩ := pure_eq_ok h
    exact .index ((byRules_expr scopes trap array).value ha)
      ((byRules_expr scopes trap idx).value hi)
  | .binary span type op left right => by
    have hl := byRules_expr scopes trap left
    have hr := byRules_expr scopes trap right
    by_cases hand : op = .logAnd
    · subst hand
      exact byRules_of_branch rfl trivial fun h => by
        obtain ⟨sl, cl, sr, hsl, hsr, rfl⟩ := of_branchAnd h
        exact .and (hl.branch hsl) (hr.branch hsr)
    by_cases hor : op = .logOr
    · subst hor
      exact byRules_of_branch rfl trivial fun h => by
        obtain ⟨sl, cl, sr, hsl, hsr, rfl⟩ := of_branchOr h
        exact .or (hl.branch hsl) (hr.branch hsr)
    have htest : Tested (.binary span type op left right) := by
      cases op <;> trivial
    refine byRules_of_value (expr_binary hand hor) htest fun h => ?_
    cases hop : wordOp op with
    | none => rw [hop] at h; cases h
    | some wop =>
      rw [hop] at h
      obtain ⟨xl, cl, hxl, h⟩ := ok_of_bind h
      obtain ⟨xr, hxr, rfl⟩ := bind_pure_eq_ok h
      exact .binary hop (hl.value hxl) (hr.value hxr)
  | .unary span type op x => by
    have hx := byRules_expr scopes trap x
    by_cases hnot : op = .logNot
    · subst hnot
      exact byRules_of_branch rfl trivial fun h => .not (hx.branch h)
    have htest : Tested (.unary span type op x) := by
      cases op <;> trivial
    refine byRules_of_value (expr_unary hnot) htest fun h => ?_
    cases hop : wordUnOp op with
    | none => rw [hop] at h; cases h
    | some wop =>
      rw [hop] at h
      obtain ⟨v, hv, rfl⟩ := bind_pure_eq_ok h
      exact .unary hop (hx.value hv)
  | .call span type func args => byRules_of_value rfl trivial fun h => by
    obtain ⟨xs, hxs, rfl⟩ := bind_pure_eq_ok h
    exact .call (byRules_values scopes trap args hxs)

lemma byRules_values (scopes : List Scope) (trap : String) {c xs c'} :
    (es : List Tree.Expr) → values scopes trap es c = .ok (xs, c') → ValuesOf scopes trap es c xs c'
  | [], h => by
    obtain ⟨rfl, rfl⟩ := pure_eq_ok h
    exact .nil
  | e :: es, h => by
    obtain ⟨x, c1, hx, h⟩ := ok_of_bind h
    obtain ⟨xs, hxs, rfl⟩ := bind_pure_eq_ok h
    exact .cons ((byRules_expr scopes trap e).value hx) (byRules_values scopes trap es hxs)

end

end

/-! ### Arrays -/

/-- The code that allocates an array whose sizes are in registers. -/
inductive AllocOf : Expr → List Expr → Compiling → List Stmt → Expr → Compiling → Prop where
  | one {size c} :
    AllocOf size [] c
      (allocArray.header size (.temp (numbered "aB" (c.temps + 1)))
        (.temp (numbered "aR" (c.temps + 2))))
      (.temp (numbered "aR" (c.temps + 2))) { c with temps := c.temps + 2 }
  | rows {size inner rest c alloc row c'} :
    AllocOf inner rest { c with temps := c.temps + 3, labels := c.labels + 3 } alloc row c' →
    AllocOf size (inner :: rest) c
      (rowsCode size (.temp (numbered "aB" (c.temps + 1))) (.temp (numbered "aR" (c.temps + 2)))
        (.temp (numbered "aJ" (c.temps + 3))) row (numbered "rows.begin" (c.labels + 1))
        (numbered "rows.body" (c.labels + 2)) (numbered "rows.end" (c.labels + 3)) alloc)
      (.temp (numbered "aR" (c.temps + 2))) c'

lemma allocOf_of_allocArray (h : allocArray size rest c = .ok (r, c')) :
    AllocOf size rest c r.1 r.2 c' := by
  induction rest generalizing size c r with
  | nil =>
    cases h
    exact .one
  | cons inner rest ih =>
    simp only [allocArray, newTemp_bind, newLabel_bind] at h
    obtain ⟨⟨alloc, row⟩, c1, ha, h⟩ := ok_of_bind h
    obtain ⟨rfl, rfl⟩ := pure_eq_ok h
    exact .rows (ih ha)

/-- The code that evaluates sizes into registers. -/
inductive SizesOf (scopes : List Scope) (trap : String) :
    List Tree.Expr → Compiling → List Stmt → List Expr → Compiling → Prop where
  | nil {c} : SizesOf scopes trap [] c [] [] c
  | cons {e es c x c1 moves ts c2} : ValueOf scopes trap e c x c1 →
    SizesOf scopes trap es { c1 with temps := c1.temps + 1 } moves ts c2 →
    SizesOf scopes trap (e :: es) c (.move (.temp (numbered "aS" (c1.temps + 1))) x :: moves)
      (.temp (numbered "aS" (c1.temps + 1)) :: ts) c2

lemma sizesOf_of_sizeMoves (h : sizeMoves scopes trap es c = .ok (r, c')) :
    SizesOf scopes trap es c r.1 r.2 c' := by
  induction es generalizing c r with
  | nil =>
    obtain ⟨rfl, rfl⟩ := pure_eq_ok h
    exact .nil
  | cons e es ih =>
    obtain ⟨x, c1, hx, h⟩ := ok_of_bind h
    simp only [newTemp_bind] at h
    obtain ⟨⟨moves, ts⟩, c2, hm, h⟩ := ok_of_bind h
    obtain ⟨rfl, rfl⟩ := pure_eq_ok h
    exact .cons ((byRules_expr scopes trap e).value hx) (ih hm)

/-- The code that allocates the array of a declaration, and the reference. -/
inductive ArrayOf (scopes : List Scope) (trap : String) :
    List Tree.Expr → List Tree.Expr → Compiling → List Stmt → Expr → Compiling → Prop where
  | sizes {sizes elements c moves size rest c1 alloc ref c2} :
    SizesOf scopes trap sizes c moves (size :: rest) c1 → AllocOf size rest c1 alloc ref c2 →
    ArrayOf scopes trap sizes elements c (moves ++ alloc) ref c2
  | elements {elements c xs c1} : ValuesOf scopes trap elements c xs c1 →
    ArrayOf scopes trap [] elements c
      [literalCode (.temp (numbered "aB" (c1.temps + 1))) xs]
      (plus (.temp (numbered "aB" (c1.temps + 1))) word) { c1 with temps := c1.temps + 1 }

lemma arrayOf_of_declaredArray (h : declaredArray scopes trap sizes elements c = .ok (r, c')) :
    ArrayOf scopes trap sizes elements c r.1 r.2 c' := by
  obtain ⟨⟨moves, ts⟩, c1, hm, h⟩ := ok_of_bind h
  have hs := sizesOf_of_sizeMoves hm
  cases ts with
  | cons size rest =>
    obtain ⟨⟨alloc, ref⟩, c2, ha, h⟩ := ok_of_bind h
    obtain ⟨rfl, rfl⟩ := pure_eq_ok h
    exact .sizes hs (allocOf_of_allocArray ha)
  | nil =>
    cases hs
    obtain ⟨xs, c2, hx, h⟩ := ok_of_bind h
    cases h
    exact .elements (byRules_values scopes trap elements hx)

/-! ### Statements -/

/-- The moves of results, from the `i`-th on, to variables. -/
inductive ResultsOf (scopes : List Scope) (c : Compiling) : Nat → List Ident →
    List Stmt → Prop where
  | nil {i} : ResultsOf scopes c i [] []
  | cons {i id ids reg moves} : Register scopes c id reg →
    ResultsOf scopes c (i + 1) ids moves →
    ResultsOf scopes c i (id :: ids) (.move (.temp reg) (.temp (retReg i)) :: moves)

lemma resultsOf_of_resultMoves (h : resultMoves scopes i ids c = .ok (moves, c')) :
    c' = c ∧ ResultsOf scopes c i ids moves := by
  induction ids generalizing i moves with
  | nil =>
    obtain ⟨rfl, rfl⟩ := pure_eq_ok h
    exact ⟨rfl, .nil⟩
  | cons id ids ih =>
    obtain ⟨x, c1, hx, h⟩ := ok_of_bind h
    obtain ⟨rfl, reg, hreg, rfl⟩ := of_registerOf hx
    obtain ⟨rest, hr, rfl⟩ := bind_pure_eq_ok h
    obtain ⟨rfl, hr⟩ := ih hr
    exact ⟨rfl, .cons hreg hr⟩

mutual

/-- A statement has this code, if any. -/
inductive StmtOf (trap : String) :
    List Scope → Tree.Stmt → Compiling → Option Stmt → Compiling → Prop where
  | block {scopes span scope ss c code c'} : StmtsOf trap (scope :: scopes) ss c code c' →
    StmtOf trap scopes (.block span (some scope) ss) c (some (.seq code)) c'
  | declare {scopes span name type c sym} : scopes.head?.bind (·.find? name) = some sym →
    StmtOf trap scopes (.var span name type none) c none (declared c sym)
  | var {scopes span name type e c x c1 sym} : ValueOf scopes trap e c x c1 →
    scopes.head?.bind (·.find? name) = some sym →
    StmtOf trap scopes (.var span name type (some e)) c
      (some (.move (.temp (registerFor c1 sym)) x)) (declared c1 sym)
  | array {scopes span name type sizes elements c alloc ref c1 sym} :
    ArrayOf scopes trap sizes elements c alloc ref c1 →
    scopes.head?.bind (·.find? name) = some sym →
    StmtOf trap scopes (.array span name type sizes elements) c
      (some (.seq (alloc ++ [.move (.temp (registerFor c1 sym)) ref]))) (declared c1 sym)
  | assign {scopes span id e c reg x c'} : Register scopes c id reg →
    ValueOf scopes trap e c x c' →
    StmtOf trap scopes (.assign span (.ident id) e) c (some (.move (.temp reg) x)) c'
  | store {scopes span ispan type array idx e c xa ca xi ci x c'} :
    ValueOf scopes trap array c xa ca → ValueOf scopes trap idx ca xi ci →
    ValueOf scopes trap e
      { ci with temps := ci.temps + 2, labels := ci.labels + 1, traps := true } x c' →
    StmtOf trap scopes (.assign span (.index ispan type array idx) e) c
      (some (.move (.mem (.eseq (checkCode (.temp (numbered "aA" (ci.temps + 1)))
          (.temp (numbered "aI" (ci.temps + 2))) xa xi
          (numbered "bounds.ok" (ci.labels + 1)) trap)
        (elementAddr (.temp (numbered "aA" (ci.temps + 1)))
          (.temp (numbered "aI" (ci.temps + 2)))))) x)) c'
  | multi {scopes span targets callSpan callType func args c xs c1 moves} :
    ValuesOf scopes trap args c xs c1 → ResultsOf scopes c1 1 targets moves →
    StmtOf trap scopes (.multi span targets callSpan callType func args) c
      (some (.seq (.call targets.length (.name func) xs :: moves))) c1
  | ifThen {scopes span cond yes c test c1 code c2} :
    BranchOf scopes trap cond (numbered "if.then" (c.labels + 1))
      (numbered "if.end" (c.labels + 2)) { c with labels := c.labels + 2 } test c1 →
    StmtOf trap scopes yes c1 code c2 →
    StmtOf trap scopes (.branch span cond yes none) c
      (some (.seq ([test, .label (numbered "if.then" (c.labels + 1))] ++ code.toList ++
        [.label (numbered "if.end" (c.labels + 2))]))) c2
  | ifElse {scopes span cond yes no c test c1 code c2 code' c3} :
    BranchOf scopes trap cond (numbered "if.then" (c.labels + 1))
      (numbered "if.else" (c.labels + 3)) { c with labels := c.labels + 3 } test c1 →
    StmtOf trap scopes yes c1 code c2 → StmtOf trap scopes no c2 code' c3 →
    StmtOf trap scopes (.branch span cond yes (some no)) c
      (some (.seq ([test, .label (numbered "if.then" (c.labels + 1))] ++ code.toList ++
        [jumpTo (numbered "if.end" (c.labels + 2)),
          .label (numbered "if.else" (c.labels + 3))] ++ code'.toList ++
        [.label (numbered "if.end" (c.labels + 2))]))) c3
  | loop {scopes span cond body c test c1 code c2} :
    BranchOf scopes trap cond (numbered "while.body" (c.labels + 2))
      (numbered "while.end" (c.labels + 3)) { c with labels := c.labels + 3 } test c1 →
    StmtOf trap scopes body c1 code c2 →
    StmtOf trap scopes (.loop span cond body) c
      (some (.seq ([.label (numbered "while.begin" (c.labels + 1)), test,
        .label (numbered "while.body" (c.labels + 2))] ++ code.toList ++
        [jumpTo (numbered "while.begin" (c.labels + 1)),
          .label (numbered "while.end" (c.labels + 3))]))) c2
  | ret {scopes span es c xs c'} : ValuesOf scopes trap es c xs c' →
    StmtOf trap scopes (.ret span es) c (some (.ret xs)) c'
  | expr {scopes span e c x c'} : ValueOf scopes trap e c x c' →
    StmtOf trap scopes (.expr span e) c (some (.exp x)) c'

/-- Statements have this code, in order. -/
inductive StmtsOf (trap : String) :
    List Scope → List Tree.Stmt → Compiling → List Stmt → Compiling → Prop where
  | nil {scopes c} : StmtsOf trap scopes [] c [] c
  | cons {scopes s ss c code c1 codes c2} : StmtOf trap scopes s c code c1 →
    StmtsOf trap scopes ss c1 codes c2 →
    StmtsOf trap scopes (s :: ss) c (code.toList ++ codes) c2

end

lemma stmtOf_of_assignment
    (h : assignment scopes trap span target (expr scopes trap e).value c = .ok (s, c')) :
    StmtOf trap scopes (.assign span target e) c (some s) c' := by
  cases target with
  | ident id =>
    obtain ⟨x, c1, hx, h⟩ := ok_of_bind h
    obtain ⟨rfl, reg, hreg, rfl⟩ := of_registerOf hx
    obtain ⟨v, hv, rfl⟩ := bind_pure_eq_ok h
    exact .assign hreg ((byRules_expr scopes trap e).value hv)
  | index ispan type array idx =>
    obtain ⟨r, c1, hr, h⟩ := ok_of_bind h
    obtain ⟨xa, ca, xi, ci, ha, hi, rfl, rfl⟩ := of_boundsCheck hr
    obtain ⟨v, hv, rfl⟩ := bind_pure_eq_ok h
    exact .store ((byRules_expr scopes trap array).value ha)
      ((byRules_expr scopes trap idx).value hi) ((byRules_expr scopes trap e).value hv)
  | _ => cases h

mutual

/-- The code of statements goes by the rules. -/
lemma stmtOf_of_stmt (trap : String) {scopes c code c'} :
    (s : Tree.Stmt) → stmt scopes trap s c = .ok (code, c') → StmtOf trap scopes s c code c'
  | .block _ none _, h => by cases h
  | .block _ (some scope) ss, h => by
    obtain ⟨codes, hs, rfl⟩ := bind_pure_eq_ok h
    exact .block (stmtsOf_of_stmts trap ss hs)
  | .var _ name _ none, h => by
    obtain ⟨reg, c1, hd, h⟩ := ok_of_bind h
    obtain ⟨sym, hsym, rfl, rfl⟩ := of_declare hd
    obtain ⟨rfl, rfl⟩ := pure_eq_ok h
    exact .declare hsym
  | .var _ name _ (some e), h => by
    obtain ⟨x, c1, hx, h⟩ := ok_of_bind h
    obtain ⟨reg, c2, hd, h⟩ := ok_of_bind h
    obtain ⟨sym, hsym, rfl, rfl⟩ := of_declare hd
    obtain ⟨rfl, rfl⟩ := pure_eq_ok h
    exact .var ((byRules_expr scopes trap e).value hx) hsym
  | .array _ name _ sizes elements, h => by
    obtain ⟨⟨alloc, ref⟩, c1, ha, h⟩ := ok_of_bind h
    obtain ⟨reg, c2, hd, h⟩ := ok_of_bind h
    obtain ⟨sym, hsym, rfl, rfl⟩ := of_declare hd
    obtain ⟨rfl, rfl⟩ := pure_eq_ok h
    exact .array (arrayOf_of_declaredArray ha) hsym
  | .assign span target e, h => by
    obtain ⟨s, hs, rfl⟩ := bind_pure_eq_ok h
    exact stmtOf_of_assignment hs
  | .multi _ targets _ _ func args, h => by
    obtain ⟨xs, c1, hx, h⟩ := ok_of_bind h
    obtain ⟨moves, hm, rfl⟩ := bind_pure_eq_ok h
    obtain ⟨rfl, hm⟩ := resultsOf_of_resultMoves hm
    exact .multi (byRules_values scopes trap args hx) hm
  | .branch _ cond yes none, h => by
    simp only [stmt, newLabel_bind] at h
    obtain ⟨test, c1, ht, h⟩ := ok_of_bind h
    obtain ⟨code, hy, rfl⟩ := bind_pure_eq_ok h
    exact .ifThen ((byRules_expr scopes trap cond).branch ht) (stmtOf_of_stmt trap yes hy)
  | .branch _ cond yes (some no), h => by
    simp only [stmt, newLabel_bind] at h
    obtain ⟨test, c1, ht, h⟩ := ok_of_bind h
    obtain ⟨code, c2, hy, h⟩ := ok_of_bind h
    obtain ⟨code', hn, rfl⟩ := bind_pure_eq_ok h
    exact .ifElse ((byRules_expr scopes trap cond).branch ht) (stmtOf_of_stmt trap yes hy)
      (stmtOf_of_stmt trap no hn)
  | .loop _ cond body, h => by
    simp only [stmt, newLabel_bind] at h
    obtain ⟨test, c1, ht, h⟩ := ok_of_bind h
    obtain ⟨code, hb, rfl⟩ := bind_pure_eq_ok h
    exact .loop ((byRules_expr scopes trap cond).branch ht) (stmtOf_of_stmt trap body hb)
  | .ret _ es, h => by
    obtain ⟨xs, hx, rfl⟩ := bind_pure_eq_ok h
    exact .ret (byRules_values scopes trap es hx)
  | .expr _ e, h => by
    obtain ⟨x, hx, rfl⟩ := bind_pure_eq_ok h
    exact .expr ((byRules_expr scopes trap e).value hx)
  | .missing, h => by cases h

lemma stmtsOf_of_stmts (trap : String) {scopes c codes c'} : (ss : List Tree.Stmt) →
    stmts scopes trap ss c = .ok (codes, c') → StmtsOf trap scopes ss c codes c'
  | [], h => by
    obtain ⟨rfl, rfl⟩ := pure_eq_ok h
    exact .nil
  | s :: ss, h => by
    obtain ⟨code, c1, hs, h⟩ := ok_of_bind h
    obtain ⟨codes, hss, rfl⟩ := bind_pure_eq_ok h
    exact .cons (stmtOf_of_stmt trap s hs) (stmtsOf_of_stmts trap ss hss)

end

/-! ### Functions -/

/-- The moves of arguments, from the `i`-th on, to the registers of parameters. -/
inductive ParamsOf (scope : Scope) :
    Nat → List Tree.Param → Compiling → List String → List Stmt → Compiling → Prop where
  | nil {i c} : ParamsOf scope i [] c [] [] c
  | cons {i p ps c sym regs moves c'} : scope.find? p.name = some sym →
    ParamsOf scope (i + 1) ps (declared c sym) regs moves c' →
    ParamsOf scope i (p :: ps) c (registerFor c sym :: regs)
      (.move (.temp (registerFor c sym)) (.temp (argReg i)) :: moves) c'

lemma paramsOf_of_paramMoves (h : paramMoves (scope :: outer) i ps c = .ok (r, c')) :
    ParamsOf scope i ps c r.1 r.2 c' := by
  induction ps generalizing i c r with
  | nil =>
    obtain ⟨rfl, rfl⟩ := pure_eq_ok h
    exact .nil
  | cons p ps ih =>
    obtain ⟨reg, c1, hd, h⟩ := ok_of_bind h
    obtain ⟨sym, hsym, rfl, rfl⟩ := of_declare hd
    obtain ⟨⟨regs, moves⟩, c2, hm, h⟩ := ok_of_bind h
    obtain ⟨rfl, rfl⟩ := pure_eq_ok h
    exact .cons hsym (ih hm)

/-- The code of a function. -/
inductive FunctionOf (outer : List Scope) :
    Tree.Function → Compiling → Function → Compiling → Prop where
  | mk {f : Tree.Function} {params scope : Scope} {span ss c regs moves c1 body c2} :
    f.scope = some params → f.body = some { span, scope := some scope, stmts := ss } →
    ParamsOf params 1 f.params { c with bound := [], used := [], traps := false } regs moves
      c1 →
    StmtsOf (f.name ++ ".bounds") (scope :: params :: outer) ss c1 body c2 →
    FunctionOf outer f c
      { name := f.name
        params := regs
        body := .seq (moves ++ [.seq body] ++
          ending (f.name ++ ".bounds") (!f.returns.isEmpty) c2.traps) } c2

lemma functionOf_of_function (h : function outer f c = .ok (g, c')) :
    FunctionOf outer f c g c' := by
  unfold function at h
  cases hp : f.scope with
  | none => simp only [hp] at h; cases h
  | some params =>
    cases hb : f.body with
    | none => simp only [hp, hb] at h; cases h
    | some b =>
      obtain ⟨span, _ | scope, ss⟩ := b
      · simp only [hp, hb] at h
        cases h
      · simp only [hp, hb] at h
        obtain ⟨u, c1, hm, h⟩ := ok_of_bind h
        cases hm
        obtain ⟨⟨regs, moves⟩, c1, hparams, h⟩ := ok_of_bind h
        obtain ⟨body, c2, hbody, h⟩ := ok_of_bind h
        cases h
        exact .mk hp hb (paramsOf_of_paramMoves hparams) (stmtsOf_of_stmts _ ss hbody)

/-- The code of functions, in order. -/
inductive FunctionsOf (outer : List Scope) :
    List Tree.Function → Compiling → List Function → Prop where
  | nil {c} : FunctionsOf outer [] c []
  | cons {f fs c g c' gs} : FunctionOf outer f c g c' → FunctionsOf outer fs c' gs →
    FunctionsOf outer (f :: fs) c (g :: gs)

lemma functionsOf_of_functions (h : functions outer fs c = .ok gs) : FunctionsOf outer fs c gs := by
  induction fs generalizing c gs with
  | nil =>
    cases h
    exact .nil
  | cons f fs ih =>
    obtain ⟨⟨g, c1⟩, hw, h⟩ := Except.bind_eq_ok h
    obtain ⟨gs, hgs, h⟩ := Except.bind_eq_ok h
    cases h
    exact .cons (functionOf_of_function (Error.of_wrap_eq_ok hw)) (ih hgs)

lemma FunctionsOf.exists_of_mem (h : FunctionsOf outer fs c gs) (hg : g ∈ gs) :
    ∃ f ∈ fs, ∃ c c', FunctionOf outer f c g c' := by
  induction h with
  | nil => cases hg
  | @cons f fs c g' c' gs hf _ ih =>
    rcases List.mem_cons.1 hg with rfl | hg
    · exact ⟨f, List.mem_cons_self, _, _, hf⟩
    · obtain ⟨f', hf', hrest⟩ := ih hg
      exact ⟨f', List.mem_cons_of_mem _ hf', hrest⟩

lemma functionsOf_of_ofTree (h : CodeUnit.ofTree p = .ok u) : ∃ scope, p.scope = some scope ∧
      FunctionsOf [scope, Scope.outermost] p.functions {} u.functions := by
  unfold CodeUnit.ofTree at h
  cases hs : p.scope with
  | none => simp only [hs] at h; cases h
  | some scope =>
    simp only [hs] at h
    obtain ⟨gs, hgs, h⟩ := Except.bind_eq_ok h
    cases h
    exact ⟨scope, rfl, functionsOf_of_functions hgs⟩

end TreeMachine.Structured.Compile
