import TreeMachine.Proofs.Generated
import TreeMachine.Proofs.Resolved
import TreeMachine.Structured.Walk

/-!
# Names for registers

Compiling a function takes names for registers in a fixed order: one for each declaration,
and one for each intermediate value. `draws` lists them by recursion on the tree, and
`Supply.names` gives the names, by the counter and the names that are in use.

Names of intermediate values are numbered, and a declaration whose name is in use is numbered
as well. A number is taken once, so these names are different. A declaration that has its own
name is told apart from them as long as no declared name has the form of a numbered one.
-/

namespace TreeMachine

/-- A name does not have the form of a numbered one. -/
def Plain (name : String) : Prop :=
  ∀ hint n, name ≠ numbered hint n

lemma Pointless.plain (h : Pointless name) : Plain name :=
  fun _ _ he => numbered_ne h he.symm

namespace Structured

open TreeMachine.Tree

lemma isConventionReg_numbered (hint : String) (n : Nat) :
    isConventionReg (numbered hint n) = false := by
  have hdigits : ∀ ds : List Char, '.' ∈ ds → (!ds.isEmpty && ds.all Char.isDigit) = false := by
    intro ds hds
    rw [Bool.and_eq_false_iff, List.all_eq_false]
    exact .inr ⟨'.', hds, by decide⟩
  have hpoint : '.' ∈ (numbered hint n).toList := by simp [toList_numbered]
  unfold isConventionReg
  split
  · next ds he => exact hdigits ds (by simpa [he] using hpoint)
  · next ds he => exact hdigits ds (by simpa [he] using hpoint)
  · rfl

/-! ### Names -/

/-- What a name of a register is taken for: an intermediate value, or a declaration. -/
inductive Draw where
  | temp (hint : String)
  | decl (sym : Symbol)

/-- What decides on the names of registers. -/
structure Supply where
  /-- The last number that was taken. -/
  temps : Nat
  /-- The registers of declarations. -/
  used : List String
  /-- The same registers, by the declarations' numbers. -/
  bound : List (Nat × String)

/-- The part of the compiler's state that decides on names. -/
def Compiling.supply (c : Compiling) : Supply :=
  { temps := c.temps, used := c.used, bound := c.bound }

namespace Supply

variable {d : Draw} {ds : List Draw}

/-- Whether a declaration cannot have its own name. -/
def clashes (s : Supply) (name : String) : Bool :=
  s.used.contains name || isConventionReg name

def name (s : Supply) : Draw → String
  | .temp hint => numbered hint (s.temps + 1)
  | .decl sym => if s.clashes sym.name then numbered sym.name (s.temps + 1) else sym.name

def draw (s : Supply) : Draw → Supply
  | .temp _ => { s with temps := s.temps + 1 }
  | .decl sym =>
    { temps := if s.clashes sym.name then s.temps + 1 else s.temps
      used := s.name (.decl sym) :: s.used
      bound := (sym.id, s.name (.decl sym)) :: s.bound }

/-- What is left after several names were taken. -/
def drawAll (s : Supply) (ds : List Draw) : Supply :=
  ds.foldl draw s

/-- The names that are taken one after the other. -/
def names : Supply → List Draw → List String
  | _, [] => []
  | s, d :: ds => s.name d :: (s.draw d).names ds

variable {s : Supply}

@[simp] lemma drawAll_nil : s.drawAll [] = s := rfl

@[simp] lemma drawAll_cons (d : Draw) (ds : List Draw) :
    s.drawAll (d :: ds) = (s.draw d).drawAll ds := rfl

@[simp] lemma drawAll_append (ds ds' : List Draw) :
    s.drawAll (ds ++ ds') = (s.drawAll ds).drawAll ds' :=
  List.foldl_append

@[simp] lemma names_append (ds ds' : List Draw) :
    s.names (ds ++ ds') = s.names ds ++ (s.drawAll ds).names ds' := by
  induction ds generalizing s with
  | nil => rfl
  | cons d ds ih => simp [names, ih]

@[simp] lemma length_names (ds : List Draw) : (s.names ds).length = ds.length := by
  induction ds generalizing s with
  | nil => rfl
  | cons d ds ih => simp [names, ih]

/-- The names in use are not those of arguments and results, and their numbers, if any, have
been taken. -/
def Settled (s : Supply) : Prop :=
  ∀ r ∈ s.used, isConventionReg r = false ∧
    (Plain r ∨ ∃ hint n, r = numbered hint n ∧ n ≤ s.temps)

def Free (s : Supply) (r : String) : Prop :=
  isConventionReg r = false ∧ r ∉ s.used ∧ (Plain r ∨ ∃ hint n, r = numbered hint n ∧ s.temps < n)

lemma Settled.free (h : s.Settled) (hint : String) (hn : s.temps < n) :
    s.Free (numbered hint n) := by
  refine ⟨isConventionReg_numbered hint n, fun hr => ?_, .inr ⟨hint, n, rfl, hn⟩⟩
  rcases (h _ hr).2 with hplain | ⟨hint', n', he, hle⟩
  · exact hplain hint n rfl
  · have := (numbered_inj.1 he).2
    omega

lemma not_clashes {name : String} (h : ¬s.clashes name = true) :
    name ∉ s.used ∧ isConventionReg name = false := by
  simpa [clashes, List.contains_iff_mem] using h

lemma Settled.free_name (h : s.Settled) (hd : ∀ sym, d = .decl sym → Plain sym.name) :
    s.Free (s.name d) := by
  cases d with
  | temp hint => exact h.free hint (Nat.lt_succ_self _)
  | decl sym =>
    simp only [name]
    split
    · exact h.free sym.name (Nat.lt_succ_self _)
    · next hc =>
      obtain ⟨hu, hr⟩ := not_clashes hc
      exact ⟨hr, hu, .inl (hd sym rfl)⟩

lemma Settled.draw (h : s.Settled) (hd : ∀ sym, d = .decl sym → Plain sym.name) :
    (s.draw d).Settled := by
  have hname := h.free_name hd
  intro r hr
  cases d with
  | temp hint =>
    obtain ⟨hconv, hform⟩ := h r hr
    refine ⟨hconv, hform.imp_right ?_⟩
    rintro ⟨hint', n, rfl, hn⟩
    exact ⟨hint', n, rfl, Nat.le_succ_of_le hn⟩
  | decl sym =>
    rcases List.mem_cons.1 hr with rfl | hr
    · refine ⟨hname.1, ?_⟩
      simp only [name, Supply.draw]
      split
      · exact .inr ⟨_, _, rfl, le_rfl⟩
      · exact .inl (hd sym rfl)
    · obtain ⟨hconv, hform⟩ := h r hr
      refine ⟨hconv, hform.imp_right ?_⟩
      rintro ⟨hint', n, rfl, hn⟩
      refine ⟨hint', n, rfl, ?_⟩
      simp only [Supply.draw]
      split <;> omega

lemma Settled.drawAll (h : s.Settled) (hds : ∀ sym, .decl sym ∈ ds → Plain sym.name) :
    (s.drawAll ds).Settled := by
  induction ds generalizing s with
  | nil => exact h
  | cons d ds ih =>
    have hd : ∀ sym, d = .decl sym → Plain sym.name := fun sym he => hds sym (by simp [he])
    exact ih (h.draw hd) fun sym hsym => hds sym (List.mem_cons_of_mem _ hsym)

lemma bound_subset_drawAll (ds : List Draw) : s.bound ⊆ (s.drawAll ds).bound := by
  induction ds generalizing s with
  | nil => exact List.Subset.refl _
  | cons d ds ih =>
    have hd : s.bound ⊆ (s.draw d).bound := by
      cases d with
      | temp hint => exact List.Subset.refl _
      | decl sym => exact List.subset_cons_self _ _
    exact List.Subset.trans hd ih

lemma mem_bound_drawAll (h : p ∈ (s.drawAll ds).bound) : p ∈ s.bound ∨ p.2 ∈ s.names ds := by
  induction ds generalizing s with
  | nil => exact .inl h
  | cons d ds ih =>
    rcases ih h with h | h
    · cases d with
      | temp hint => exact .inl h
      | decl sym =>
        rcases List.mem_cons.1 h with rfl | h
        · exact .inr List.mem_cons_self
        · exact .inl h
    · exact .inr (List.mem_cons_of_mem _ h)

lemma Free.of_draw (h : (s.draw d).Free r) : s.Free r ∧ r ≠ s.name d := by
  obtain ⟨hconv, hused, hform⟩ := h
  cases d with
  | temp hint =>
    refine ⟨⟨hconv, hused, hform.imp_right ?_⟩, ?_⟩
    · rintro ⟨hint', n, rfl, hn⟩
      exact ⟨hint', n, rfl, Nat.lt_of_succ_lt hn⟩
    · rintro rfl
      rcases hform with hplain | ⟨hint', n, he, hn⟩
      · exact hplain _ _ rfl
      · obtain ⟨-, rfl⟩ := numbered_inj.1 he
        exact lt_irrefl _ hn
  | decl sym =>
    have hused' : r ∉ s.name (.decl sym) :: s.used := hused
    rw [List.mem_cons, not_or] at hused'
    refine ⟨⟨hconv, hused'.2, hform.imp_right ?_⟩, hused'.1⟩
    rintro ⟨hint', n, rfl, hn⟩
    refine ⟨hint', n, rfl, ?_⟩
    simp only [Supply.draw] at hn
    split at hn <;> omega

/-- Names that are taken one after the other were free, and are different. -/
lemma Settled.names_free (h : s.Settled) (hds : ∀ sym, .decl sym ∈ ds → Plain sym.name) :
    (∀ r ∈ s.names ds, s.Free r) ∧ (s.names ds).Nodup := by
  induction ds generalizing s with
  | nil => exact ⟨by simp [names], List.nodup_nil⟩
  | cons d ds ih =>
    have hd : ∀ sym, d = .decl sym → Plain sym.name := fun sym he => hds sym (by simp [he])
    obtain ⟨hfree, hnodup⟩ := ih (h.draw hd) fun sym hsym => hds sym (List.mem_cons_of_mem _ hsym)
    refine ⟨List.forall_mem_cons.2 ⟨h.free_name hd, fun r hr => (hfree r hr).of_draw.1⟩, ?_⟩
    exact List.nodup_cons.2 ⟨fun hr => (hfree _ hr).of_draw.2 rfl, hnodup⟩

/-- The numbers of the declarations among some draws. -/
def ids (ds : List Draw) : List Nat :=
  ds.filterMap fun
    | .temp _ => none
    | .decl sym => some sym.id

lemma lookup_drawAll {id : Nat} (h : id ∉ ids ds) :
    (s.drawAll ds).bound.lookup id = s.bound.lookup id := by
  induction ds generalizing s with
  | nil => rfl
  | cons d ds ih =>
    cases d with
    | temp hint => exact ih h
    | decl sym =>
      have hne : id ≠ sym.id := fun he => h (by simp [ids, he])
      have hrest : id ∉ ids ds := fun he => h (List.mem_cons_of_mem _ he)
      rw [drawAll_cons, ih hrest, draw, List.lookup_cons, beq_false_of_ne hne]

lemma lookup_of_draw {i : Nat} {sym : Symbol} (hn : (ids ds).Nodup)
    (h : ds[i]? = some (.decl sym)) :
    (s.drawAll ds).bound.lookup sym.id = (s.names ds)[i]? := by
  induction ds generalizing s i with
  | nil => simp at h
  | cons d ds ih =>
    cases i with
    | succ i =>
      have hn' : (ids ds).Nodup := by
        cases d with
        | temp hint => exact hn
        | decl sym' => exact (List.nodup_cons.1 hn).2
      simpa [names] using ih hn' h
    | zero =>
      obtain rfl : d = .decl sym := by simpa using h
      rw [drawAll_cons, lookup_drawAll (List.nodup_cons.1 hn).1]
      simp [names, draw]

end Supply

namespace Compile

variable {f : Tree.Function} {sym : Symbol} {name : String} {scope : Scope} {c c' : Compiling}
  {n : Nat}

/-! ### What takes a name -/

def temps (hints : List String) : List Draw :=
  hints.map .temp

mutual

/-- The intermediate values of an expression that is compiled for its value or as a test, in
the order of compiling. -/
def hints (value : Bool) : Tree.Expr → List String
  | .int _ _ => []
  | .bool _ _ => []
  | .string _ _ => ["aB"]
  | .ident _ => []
  | .index _ _ array idx => hints true array ++ hints true idx ++ ["aA", "aI"]
  | .binary _ _ op left right =>
    match op with
    | .logAnd => (if value then ["b"] else []) ++ hints false left ++ hints false right
    | .logOr => (if value then ["b"] else []) ++ hints false left ++ hints false right
    | _ => hints true left ++ hints true right
  | .unary _ _ op x =>
    match op with
    | .logNot => (if value then ["b"] else []) ++ hints false x
    | _ => hints true x
  | .call _ _ _ args => hintsAll args

def hintsAll : List Tree.Expr → List String
  | [] => []
  | x :: xs => hints true x ++ hintsAll xs

end

/-- The intermediate values of sizes, each with a place for the size itself. -/
def sizeHints (sizes : List Tree.Expr) : List String :=
  sizes.flatMap fun x => hints true x ++ ["aS"]

/-- The intermediate values of an allocation in some dimensions besides the first. -/
def allocHints : Nat → List String
  | 0 => ["aB", "aR"]
  | n + 1 => ["aB", "aR", "aJ"] ++ allocHints n

/-- The intermediate values of an array's declaration. -/
def arrayHints (sizes elements : List Tree.Expr) : List String :=
  match sizes with
  | [] => hintsAll elements ++ ["aB"]
  | size :: rest => sizeHints (size :: rest) ++ allocHints rest.length

/-- The intermediate values of the target of an assignment. -/
def targetHints : Tree.Expr → List String
  | .index _ _ array idx => hints true array ++ hints true idx ++ ["aA", "aI"]
  | _ => []

def declDraws (scope : Option Scope) (name : String) : List Draw :=
  ((scope.bind (·.find? name)).map .decl).toList

mutual

/-- What takes a name in a statement, in the order of compiling. -/
def draws (scope : Option Scope) : Tree.Stmt → List Draw
  | .block _ inner ss => drawsAll inner ss
  | .var _ name _ value =>
    temps ((value.map (hints true)).getD []) ++ declDraws scope name
  | .array _ name _ sizes elements => temps (arrayHints sizes elements) ++ declDraws scope name
  | .assign _ target value => temps (targetHints target ++ hints true value)
  | .multi _ _ _ _ _ args => temps (hintsAll args)
  | .branch _ cond yes none => temps (hints false cond) ++ draws scope yes
  | .branch _ cond yes (some no) =>
    temps (hints false cond) ++ draws scope yes ++ draws scope no
  | .loop _ cond body => temps (hints false cond) ++ draws scope body
  | .ret _ values => temps (hintsAll values)
  | .expr _ x => temps (hints true x)
  | .missing => []

def drawsAll (scope : Option Scope) : List Tree.Stmt → List Draw
  | [] => []
  | s :: ss => draws scope s ++ drawsAll scope ss

end

/-- What takes a name in a function: its parameters, and then its body. -/
def functionDraws (f : Tree.Function) : List Draw :=
  f.params.flatMap (fun p => declDraws f.scope p.name) ++
    ((f.body.map fun b => drawsAll b.scope b.stmts).getD [])

def declaredNames (f : Tree.Function) : List String :=
  (functionDraws f).filterMap fun
    | .temp _ => none
    | .decl sym => some sym.name

lemma mem_declaredNames (h : .decl sym ∈ functionDraws f) : sym.name ∈ declaredNames f :=
  List.mem_filterMap.2 ⟨_, h, rfl⟩

/-! ### Compiling takes these names -/

lemma hints_of_logical (h : Logical e) : hints true e = "b" :: hints false e := by
  unfold Logical at h
  split at h <;> simp_all [hints]

lemma hints_of_tested (h : Tested e) : hints false e = hints true e := by
  cases e with
  | binary span type op left right => cases op <;> first | rfl | exact h.elim
  | unary span type op x => cases op <;> first | rfl | exact h.elim
  | _ => rfl

lemma hints_of_wordOp (h : wordOp op = some wop) :
    hints true (.binary span type op left right) = hints true left ++ hints true right := by
  cases op <;> first | rfl | cases h

lemma hints_of_wordUnOp (h : wordUnOp op = some wop) :
    hints true (.unary span type op x) = hints true x := by
  cases op <;> first | rfl | cases h

@[simp] lemma temps_append (hs hs' : List String) : temps (hs ++ hs') = temps hs ++ temps hs' :=
  List.map_append

@[simp] lemma temps_nil : temps [] = [] := rfl

@[simp] lemma temps_cons (h : String) (hs : List String) : temps (h :: hs) = .temp h :: temps hs :=
  rfl

lemma supply_declared (c : Compiling) (sym : Symbol) :
    (declared c sym).supply = c.supply.draw (.decl sym) := rfl

lemma declDraws_eq {scope : Option Scope} (h : scope.bind (·.find? name) = some sym) :
    declDraws scope name = [.decl sym] := by
  simp [declDraws, h]

lemma declDraws_some (h : scope.find? name = some sym) :
    declDraws (some scope) name = [.decl sym] :=
  declDraws_eq h

/-! ### The code names no other registers -/

/-- A register is in use, or its name is among those that are taken. -/
def Recorded (s : Supply) (ds : List Draw) (r : String) : Prop :=
  r ∈ s.used ∨ r ∈ s.names ds

def Listed (s : Supply) : Prop :=
  ∀ b ∈ s.bound, b.2 ∈ s.used

/-- The registers that code may name: those in use, those that are taken for it, and those of
results. -/
def MayName (s : Supply) (ds : List Draw) (r : String) : Prop :=
  Recorded s ds r ∨ ∃ n, r = retReg n

section

open List

variable {s s1 s2 : Supply} {ds ds' : List Draw} {r : String} {rs rs' : List String}

lemma Recorded.left (h : Recorded s ds r) (ds' : List Draw) : Recorded s (ds ++ ds') r := by
  rw [Recorded, Supply.names_append, mem_append]
  exact h.imp_right .inl

lemma used_draw (h : r ∈ (s.draw d).used) : r ∈ s.used ∨ r = s.name d := by
  cases d with
  | temp hint => exact .inl h
  | decl sym => exact (mem_cons.1 h).symm

lemma used_drawAll (h : r ∈ (s.drawAll ds).used) : Recorded s ds r := by
  induction ds generalizing s with
  | nil => exact .inl h
  | cons d ds ih =>
    rcases ih h with h | h
    · exact (used_draw h).imp_right fun he => by simp [Supply.names, he]
    · exact .inr (mem_cons_of_mem _ h)

lemma Recorded.right (h : Recorded (s.drawAll ds) ds' r) : Recorded s (ds ++ ds') r := by
  rcases h with h | h
  · exact (used_drawAll h).left ds'
  · exact .inr (by rw [Supply.names_append]; exact mem_append_right _ h)

lemma Listed.draw (h : Listed s) (d : Draw) : Listed (s.draw d) := by
  cases d with
  | temp hint => exact h
  | decl sym =>
    exact forall_mem_cons.2 ⟨mem_cons_self, fun b hb => mem_cons_of_mem _ (h b hb)⟩

lemma Listed.drawAll (h : Listed s) (ds : List Draw) : Listed (s.drawAll ds) := by
  induction ds generalizing s with
  | nil => exact h
  | cons d ds ih => exact ih (h.draw d)

/-- Code for which the names `ds` are taken, and that names the registers `rs`. -/
structure Names (s : Supply) (ds : List Draw) (s' : Supply) (rs : List String) : Prop where
  supply : s' = s.drawAll ds
  may : Listed s → ∀ r ∈ rs, MayName s ds r

namespace Names

lemma nil (s : Supply) : Names s [] s [] :=
  ⟨rfl, by simp⟩

lemma drawAll (s : Supply) (ds : List Draw) : Names s ds (s.drawAll ds) (s.names ds) :=
  ⟨rfl, fun _ _ hr => .inl (.inr hr)⟩

lemma temp (c : Compiling) (hint : String) : Names c.supply (temps [hint])
    { c with temps := c.temps + 1 }.supply [numbered hint (c.temps + 1)] :=
  .drawAll c.supply [.temp hint]

lemma decl (c : Compiling) (sym : Symbol) :
    Names c.supply [.decl sym] (declared c sym).supply [registerFor c sym] :=
  .drawAll c.supply [.decl sym]

lemma register {scopes id reg} (h : Register scopes c id reg) :
    Names c.supply [] c.supply [reg] := by
  obtain ⟨sym, -, hb⟩ := h
  obtain ⟨l1, l2, hsplit, -⟩ := List.lookup_eq_some_iff.1 hb
  refine ⟨rfl, fun hl r hr => .inl (.inl (mem_singleton.1 hr ▸ hl (sym.id, reg) ?_))⟩
  simp [Compiling.supply, hsplit]

lemma append (h : Names s ds s1 rs) (h' : Names s1 ds' s2 rs') :
    Names s (ds ++ ds') s2 (rs ++ rs') := by
  obtain ⟨rfl, hrs⟩ := h
  obtain ⟨rfl, hrs'⟩ := h'
  refine ⟨(Supply.drawAll_append ds ds').symm, fun hl => forall_mem_append.2 ⟨?_, ?_⟩⟩
  · exact fun r hr => (hrs hl r hr).imp_left (·.left ds')
  · exact fun r hr => (hrs' (hl.drawAll ds) r hr).imp_left (·.right)

lemma sub (h : Names s ds s1 rs) (hs : rs' ⊆ rs) : Names s ds s1 rs' :=
  ⟨h.supply, fun hl r hr => h.may hl r (hs hr)⟩

end Names

@[simp] lemma tempsAll_append (ss ss' : List Stmt) :
    Stmt.tempsAll (ss ++ ss') = Stmt.tempsAll ss ++ Stmt.tempsAll ss' := by
  induction ss with
  | nil => rfl
  | cons s ss ih => simp [Stmt.tempsAll, ih]

lemma temps_literal (base : String) (xs : List Expr) :
    (literalCode (.temp base) xs).temps ⊆ base :: Expr.tempsAll xs := by
  have hmoves : ∀ i, Stmt.tempsAll (elementMoves (.temp base) i xs) ⊆ base :: Expr.tempsAll xs := by
    induction xs with
    | nil => simp [elementMoves, Stmt.tempsAll]
    | cons x xs ih =>
      intro i r hr
      have := @ih (i + 1) r
      simp only [elementMoves, Stmt.tempsAll, Stmt.temps, plus, Expr.temps, Expr.tempsAll,
        mem_append, mem_cons, not_mem_nil, or_false] at hr this ⊢
      tauto
  simpa [literalCode, Stmt.temps, Stmt.tempsAll, malloc, Expr.temps, Expr.tempsAll] using hmoves 0

lemma tempsAll_consts (vs : List Int32) : Expr.tempsAll (vs.map .const) = [] := by
  induction vs with
  | nil => rfl
  | cons v vs ih => simpa [Expr.tempsAll, Expr.temps] using ih

variable {scopes : List Scope} {trap : String}

lemma named_check {ca ci : Compiling} {xa xi : Expr}
    (ha : Names c.supply (temps (hints true array)) ca.supply xa.temps)
    (hi : Names ca.supply (temps (hints true idx)) ci.supply xi.temps) (ok trap : String) :
    Names c.supply (temps (hints true array ++ hints true idx ++ ["aA", "aI"]))
      { ci with temps := ci.temps + 2, labels := ci.labels + 1, traps := true }.supply
      ((checkCode (.temp (numbered "aA" (ci.temps + 1))) (.temp (numbered "aI" (ci.temps + 2)))
          xa xi ok trap).temps ++ (elementAddr (.temp (numbered "aA" (ci.temps + 1)))
            (.temp (numbered "aI" (ci.temps + 2)))).temps) := by
  rw [temps_append, temps_append]
  refine ((ha.append hi).append ((Names.temp ci "aA").append (.temp _ "aI"))).sub fun r hr => ?_
  simp only [checkCode, elementAddr, plus, times, word, Stmt.temps, Stmt.tempsAll, Expr.temps,
    mem_append, mem_cons, not_mem_nil, or_false, false_or] at hr ⊢
  tauto

mutual

lemma named_value {e c x c'} : ValueOf scopes trap e c x c' →
    Names c.supply (temps (hints true e)) c'.supply x.temps
  | .int => .nil _
  | .bool => .nil _
  | .string (s := s) => by
    have hcodes := tempsAll_consts (s.toList.map Utf8.codeOfChar)
    rw [map_map] at hcodes
    have hbase := temps_literal (numbered "aB" (c.temps + 1))
      (s.toList.map (Expr.const ∘ Utf8.codeOfChar))
    rw [hcodes] at hbase
    exact (Names.temp c "aB").sub (append_subset.2 ⟨hbase, by simp [plus, word, Expr.temps]⟩)
  | .ident hreg => .register hreg
  | .index ha hi => named_check (named_value ha) (named_value hi) _ _
  | .binary hop hl hr => by
    rw [hints_of_wordOp hop, temps_append]
    exact (named_value hl).append (named_value hr)
  | .unary hop hx => by
    rw [hints_of_wordUnOp hop, Expr.temps]
    exact named_value hx
  | .flag hlog hb => by
    rw [hints_of_logical hlog]
    have hb := named_branch hb
    refine ((Names.temp c "b").append hb).sub ?_
    simp [Expr.temps, flagCode, Stmt.temps, Stmt.tempsAll]
  | .call hs => named_values hs

lemma named_branch {e yes no c s c'} : BranchOf scopes trap e yes no c s c' →
    Names c.supply (temps (hints false e)) c'.supply s.temps
  | .bool => .nil _
  | .and hl hr => by
    rw [hints, temps_append]
    exact ((named_branch hl).append (named_branch hr)).sub (by simp [Stmt.temps, Stmt.tempsAll])
  | .or hl hr => by
    rw [hints, temps_append]
    exact ((named_branch hl).append (named_branch hr)).sub (by simp [Stmt.temps, Stmt.tempsAll])
  | .not hx => by simpa [hints] using named_branch hx
  | .test ht hx => by
    rw [hints_of_tested ht]
    exact named_value hx

lemma named_values {es c xs c'} : ValuesOf scopes trap es c xs c' →
    Names c.supply (temps (hintsAll es)) c'.supply (Expr.tempsAll xs)
  | .nil => .nil _
  | .cons hx hs => by
    rw [hintsAll, temps_append]
    exact (named_value hx).append (named_values hs)

end

lemma AllocOf.supply (h : AllocOf size rest c alloc ref c') :
    c'.supply = c.supply.drawAll (temps (allocHints rest.length)) := by
  induction h with
  | one => rfl
  | rows _ ih => exact ih

lemma AllocOf.temps (h : AllocOf size rest c alloc ref c') :
    ∀ r ∈ Stmt.tempsAll alloc ++ ref.temps, r ∈ Expr.tempsAll (size :: rest) ∨
      r ∈ c.supply.names (temps (allocHints rest.length)) := by
  induction h with
  | @one size c =>
    intro r hr
    simp only [allocArray.header, malloc, plus, times, word, Stmt.tempsAll, Stmt.temps,
      Expr.temps, Expr.tempsAll, mem_append, mem_cons, not_mem_nil, or_false,
      false_or, length_nil, allocHints, temps_cons, temps_nil, Supply.names] at hr ⊢
    simp only [Supply.name, Supply.draw, Compiling.supply]
    tauto
  | @rows size inner rest c alloc row c' _ ih =>
    intro r hr
    have hrow := ih r
    simp only [rowsCode, allocArray.header, malloc, plus, times, word, jumpTo, tempsAll_append,
      Stmt.tempsAll, Stmt.temps, Expr.temps, Expr.tempsAll, mem_append, mem_cons,
      not_mem_nil, or_false, false_or, length_cons, allocHints, temps_append, temps_cons,
      temps_nil, Supply.names_append, Supply.names] at hr hrow ⊢
    simp only [Supply.name, Supply.draw, Supply.drawAll_cons, Supply.drawAll_nil,
      Compiling.supply] at hrow ⊢
    tauto

lemma SizesOf.named (h : SizesOf scopes trap es c moves ts c') :
    Names c.supply (temps (sizeHints es)) c'.supply (Stmt.tempsAll moves ++ Expr.tempsAll ts) ∧
      ts.length = es.length := by
  induction h with
  | nil => exact ⟨.nil _, rfl⟩
  | cons hx _ ih =>
    refine ⟨?_, by simp [ih.2]⟩
    rw [sizeHints, flatMap_cons, temps_append, temps_append]
    refine (((named_value hx).append (.temp _ "aS")).append ih.1).sub fun r hr => ?_
    simp only [Stmt.tempsAll, Stmt.temps, Expr.tempsAll, Expr.temps, mem_append,
      mem_singleton] at hr ⊢
    tauto

lemma ArrayOf.named {sizes elements alloc ref}
    (h : ArrayOf scopes trap sizes elements c alloc ref c') :
    Names c.supply (temps (arrayHints sizes elements)) c'.supply
      (Stmt.tempsAll alloc ++ ref.temps) := by
  cases h with
  | @sizes _ _ _ moves size rest c1 alloc _ _ hs ha =>
    obtain ⟨hsizes, hlen⟩ := hs.named
    cases hs with
    | cons hx hrest =>
      rw [arrayHints, ← Nat.succ.inj hlen, temps_append, ha.supply]
      refine (hsizes.append (.drawAll _ _)).sub fun r hr => ?_
      have halloc := ha.temps r
      simp only [tempsAll_append, mem_append] at hr halloc ⊢
      tauto
  | @elements _ _ xs c1 hs =>
    rw [arrayHints, temps_append]
    refine ((named_values hs).append (.temp c1 "aB")).sub fun r hr => ?_
    have hbase := @temps_literal (numbered "aB" (c1.temps + 1)) xs r
    simp only [Stmt.tempsAll, List.append_nil, plus, word, Expr.temps, mem_append, mem_cons,
      not_mem_nil, or_false] at hr hbase ⊢
    tauto

lemma ResultsOf.named (h : ResultsOf scopes c i ids moves) :
    Names c.supply [] c.supply (Stmt.tempsAll moves) := by
  induction h with
  | nil => exact .nil _
  | @cons i _ _ reg moves hreg _ ih =>
    have hret : Names c.supply [] c.supply [retReg i] :=
      ⟨rfl, fun _ r hr => .inr ⟨i, mem_singleton.1 hr⟩⟩
    exact ((Names.register hreg).append hret).append ih

mutual

lemma named_stmt {scopes s c code c'} : StmtOf trap scopes s c code c' →
    Names c.supply (draws scopes.head? s) c'.supply (Stmt.tempsAll code.toList)
  | .block hs => by simpa [draws, Stmt.tempsAll, Stmt.temps] using named_stmts hs
  | .declare hsym => by
    rw [draws, declDraws_eq hsym]
    exact (Names.decl c _).sub (nil_subset _)
  | .var hx hsym => by
    rw [draws, declDraws_eq hsym]
    refine ((named_value hx).append (.decl _ _)).sub ?_
    simp [Stmt.tempsAll, Stmt.temps, Expr.temps]
  | .array ha hsym => by
    rw [draws, declDraws_eq hsym]
    refine (ha.named.append (.decl _ _)).sub fun r hr => ?_
    simp only [Option.toList_some, Stmt.tempsAll, Stmt.temps, Expr.temps, List.append_nil,
      tempsAll_append, mem_append] at hr ⊢
    tauto
  | .assign hreg hx => by
    rw [draws]
    refine ((Names.register hreg).append (named_value hx)).sub ?_
    simp [Stmt.tempsAll, Stmt.temps, Expr.temps]
  | .store ha hi hx => by
    rw [draws, targetHints, temps_append]
    simp only [Option.toList_some, Stmt.tempsAll, Stmt.temps, Expr.temps, List.append_nil]
    exact (named_check (named_value ha) (named_value hi) _ _).append (named_value hx)
  | .multi hs hres => by
    have h := (named_values hs).append hres.named
    simpa [draws, Stmt.tempsAll, Stmt.temps, Expr.temps] using h
  | .ifThen hb hy => by
    rw [draws]
    refine ((named_branch hb).append (named_stmt hy)).sub ?_
    simp [Stmt.tempsAll, Stmt.temps]
  | .ifElse hb hy hn => by
    rw [draws]
    refine (((named_branch hb).append (named_stmt hy)).append (named_stmt hn)).sub ?_
    simp [Stmt.tempsAll, Stmt.temps, jumpTo, Expr.temps]
  | .loop hb hs => by
    rw [draws]
    refine ((named_branch hb).append (named_stmt hs)).sub ?_
    simp [Stmt.tempsAll, Stmt.temps, jumpTo, Expr.temps]
  | .ret hs => by simpa [draws, Stmt.tempsAll, Stmt.temps] using named_values hs
  | .expr hx => by simpa [draws, Stmt.tempsAll, Stmt.temps] using named_value hx

lemma named_stmts {scopes ss c codes c'} : StmtsOf trap scopes ss c codes c' →
    Names c.supply (drawsAll scopes.head? ss) c'.supply (Stmt.tempsAll codes)
  | .nil => .nil _
  | .cons hs hss => by
    rw [drawsAll, tempsAll_append]
    exact (named_stmt hs).append (named_stmts hss)

end

end

/-! ### Functions -/

lemma ParamsOf.supply (h : ParamsOf scope i ps c regs moves c') :
    c'.supply = c.supply.drawAll (ps.flatMap fun p => declDraws (some scope) p.name) := by
  induction h with
  | nil => rfl
  | cons hsym _ ih =>
    rw [ih, supply_declared, List.flatMap_cons, Supply.drawAll_append, declDraws_some hsym]
    rfl

lemma FunctionOf.supply (h : FunctionOf outer f c g c') :
    c'.supply = Supply.drawAll { temps := c.temps, used := [], bound := [] } (functionDraws f) := by
  obtain ⟨hscope, hbody, hparams, hss⟩ := h
  rw [functionDraws, hscope, hbody, Supply.drawAll_append, (named_stmts hss).supply, hparams.supply]
  rfl

/-! ### Declarations have numbers of their own -/

@[simp] lemma ids_append (ds ds' : List Draw) :
    Supply.ids (ds ++ ds') = Supply.ids ds ++ Supply.ids ds' :=
  List.filterMap_append

@[simp] lemma ids_temps (hs : List String) : Supply.ids (temps hs) = [] := by
  induction hs with
  | nil => rfl
  | cons h hs ih => exact ih

lemma ids_declDraws (h : scope.find? name = some sym) (hid : sym.id = n) :
    Supply.ids (declDraws (some scope) name) = List.range' n (n + 1 - n) := by
  simp [declDraws_some h, Supply.ids, hid]

lemma range'_append_of_le (h : n ≤ m) (h' : m ≤ k) :
    List.range' n (m - n) ++ List.range' m (k - m) = List.range' n (k - n) := by
  have := @List.range'_append n (m - n) (k - m) 1
  rw [one_mul, Nat.add_sub_cancel' h] at this
  rw [this]
  congr 1
  omega

section

variable {callee : String → Prop}

mutual

lemma ids_stmt {scope seen n s seen' n'} : Tree.Stmt.Resolved callee scope seen n s seen' n' →
    n ≤ n' ∧ Supply.ids (draws (some scope) s) = List.range' n (n' - n)
  | .block hs => by
    rw [draws]
    exact ids_stmts hs
  | .declare hf hid => by
    refine ⟨Nat.le_succ n, ?_⟩
    simp [draws, ids_declDraws hf hid]
  | .var _ hf hid => by
    refine ⟨Nat.le_succ n, ?_⟩
    simp [draws, ids_declDraws hf hid]
  | .array _ _ hf hid => by
    refine ⟨Nat.le_succ n, ?_⟩
    simp [draws, ids_declDraws hf hid]
  | .assign _ _ => ⟨le_refl n, by rw [draws, ids_temps]; simp⟩
  | .multi _ _ _ => ⟨le_refl n, by rw [draws, ids_temps]; simp⟩
  | .ifThen _ hy => by
    rw [draws, ids_append, ids_temps, List.nil_append]
    exact ids_stmt hy
  | .ifElse _ hy hn => by
    obtain ⟨hle, hy⟩ := ids_stmt hy
    obtain ⟨hle', hn⟩ := ids_stmt hn
    refine ⟨le_trans hle hle', ?_⟩
    rw [draws, ids_append, ids_append, ids_temps, List.nil_append, hy, hn,
      range'_append_of_le hle hle']
  | .loop _ hs => by
    rw [draws, ids_append, ids_temps, List.nil_append]
    exact ids_stmt hs
  | .ret _ => ⟨le_refl n, by rw [draws, ids_temps]; simp⟩
  | .expr _ => ⟨le_refl n, by rw [draws, ids_temps]; simp⟩
  | .missing => ⟨le_refl n, by rw [draws]; simp [Supply.ids]⟩

lemma ids_stmts {scope seen n ss seen' n'} : Tree.Stmts.Resolved callee scope seen n ss seen' n' →
    n ≤ n' ∧ Supply.ids (drawsAll (some scope) ss) = List.range' n (n' - n)
  | .nil => ⟨le_refl n, by rw [drawsAll]; simp [Supply.ids]⟩
  | .cons hs hss => by
    obtain ⟨hle, hs⟩ := ids_stmt hs
    obtain ⟨hle', hss⟩ := ids_stmts hss
    refine ⟨le_trans hle hle', ?_⟩
    rw [drawsAll, ids_append, hs, hss, range'_append_of_le hle hle']

end

lemma ids_params (h : Tree.ParamsResolved scope seen n ps seen' n') :
    n ≤ n' ∧ Supply.ids (ps.flatMap fun p => declDraws (some scope) p.name) =
      List.range' n (n' - n) := by
  induction h with
  | nil => exact ⟨le_rfl, by simp [Supply.ids]⟩
  | cons hf hid _ ih =>
    obtain ⟨hle, hids⟩ := ih
    refine ⟨Nat.le_of_succ_le hle, ?_⟩
    rw [List.flatMap_cons, ids_append, ids_declDraws hf hid, hids,
      range'_append_of_le (Nat.le_succ _) hle]

/-- No two declarations of a resolved function have one number. -/
lemma nodup_ids (h : f.Resolved callee n n') : (Supply.ids (functionDraws f)).Nodup := by
  obtain ⟨hscope, hbody, hparams, hss⟩ := h
  obtain ⟨hle, hparams⟩ := ids_params hparams
  obtain ⟨hle', hss⟩ := ids_stmts hss
  rw [functionDraws, hscope, hbody, ids_append, hparams]
  show (_ ++ Supply.ids (drawsAll _ _)).Nodup
  rw [hss, range'_append_of_le hle hle']
  exact List.nodup_range'

end

end Compile

end Structured

end TreeMachine
