import TreeMachine.Proofs.Adequacy
import TreeMachine.Proofs.CompiledLabels
import TreeMachine.Proofs.Resolved

/-!
# Compiled code is confined

The code of a resolved program keeps its jumps to itself: a test goes to labels of the
statement list that it was compiled for, and an index out of bounds to the function's trap,
which stands at the end of the function.
-/

open List

namespace TreeMachine.Structured.Compile

open TreeMachine.Tree

variable {es : List Tree.Expr} {c c' : Compiling} {moves alloc ss : List Stmt}
  {ts rest : List Expr} {size ref : Expr} {i n : Nat} {outer : List Scope} {g : Function}

/-! ### Expressions -/

/-- What compiled code needs of its surroundings: it may allocate, and made labels are not
those that it escapes to. -/
structure Around (ok : String → Prop) (esc : List String) : Prop where
  malloc : ok "malloc"
  made : ∀ hint n, numbered hint n ∉ esc

lemma mem_defined_of_wordOp (h : wordOp op = some wop) : wop ∈ BinOp.defined := by
  cases op <;> cases h <;> decide

section

variable {ok : String → Prop} {esc : List String} {scope : List String}

lemma confinedAll_append {ts : List Stmt} : Stmt.ConfinedAll ok esc scope (ss ++ ts) ↔
      Stmt.ConfinedAll ok esc scope ss ∧ Stmt.ConfinedAll ok esc scope ts := by
  simp only [Stmt.confinedAll_iff, forall_mem_append]

/-- A list of statements is confined by itself if its own labels can be told from those that
it escapes to. -/
lemma confined_seq (hl : ∀ l ∈ labelsIn ss, l ∉ esc)
    (h : Stmt.ConfinedAll ok esc (labelsIn ss ++ scope) ss) :
    Stmt.Confined ok esc scope (.seq ss) :=
  ⟨hl, h⟩

lemma labelsIn_elementMoves (base : Expr) (i : Nat) (xs : List Expr) :
    labelsIn (elementMoves base i xs) = [] := by
  induction xs generalizing i with
  | nil => rfl
  | cons x xs ih => rw [elementMoves, labelsIn_cons, ih]; rfl

lemma confined_elementMoves (h : Expr.ConfinedAll ok esc xs) :
    Stmt.ConfinedAll ok esc scope (elementMoves (.temp r) i xs) := by
  induction xs generalizing i with
  | nil => trivial
  | cons x xs ih => exact ⟨⟨⟨by decide, trivial, trivial⟩, h.1⟩, ih h.2⟩

lemma confined_literal (A : Around ok esc) (h : Expr.ConfinedAll ok esc xs) :
    (literalCode (.temp r) xs).Confined ok esc scope := by
  refine confined_seq ?_ ⟨⟨A.malloc, trivial, trivial⟩, ⟨trivial, trivial⟩, confined_elementMoves h⟩
  simp [labelsIn_cons, labelsIn_elementMoves]

lemma confined_check {a i label trap : String} {array idx : Expr}
    (ha : array.Confined ok esc) (hi : idx.Confined ok esc) (hl : label ∉ esc)
    (ht : trap ∈ esc) :
    (checkCode (.temp a) (.temp i) array idx label trap).Confined ok esc scope := by
  refine confined_seq (by simpa [labelsIn_cons] using hl) ⟨ha, hi, ⟨?_, ?_, .inr ht⟩,
    trivial, trivial⟩
  · exact ⟨by decide, trivial, by decide, trivial, trivial⟩
  · exact .inl (by simp [labelsIn_cons])

lemma confined_elementAddr {a i : String} : (elementAddr (.temp a) (.temp i)).Confined ok esc :=
  ⟨by decide, trivial, by decide, trivial, trivial⟩

lemma confined_flag (hy : yes ∉ esc) (hd : done ∉ esc)
    (ht : ∀ {scope}, yes ∈ scope → done ∈ scope → test.Confined ok esc scope)
    (hn : test.label? = none) : (flagCode (.temp t) test yes done).Confined ok esc scope := by
  have hlabels : labelsIn [.move (.temp t) (.const 0), test, .label yes, .move (.temp t) (.const 1),
      .label done] = [yes, done] := by
    simp [labelsIn_cons, hn]
  refine confined_seq ?_ ?_
  · simp [hlabels, hy, hd]
  · rw [hlabels]
    exact ⟨trivial, ht (by simp) (by simp), trivial, trivial, trivial, trivial⟩

variable {scopes : List Scope} {trap : String}

lemma label?_of_branchOf (h : BranchOf scopes trap e yes no c s c') : s.label? = none := by
  induction hn : sizeOf e using Nat.strongRecOn generalizing e yes no with
  | ind n ih =>
    cases h with
    | not h => exact ih _ (by rw [← hn]; simp) h rfl
    | bool | and _ _ | or _ _ | test _ _ => rfl

lemma confined_steps (hl : sl.Confined ok esc (mid :: scope))
    (hr : sr.Confined ok esc (mid :: scope)) (hm : mid ∉ esc) (hsl : sl.label? = none)
    (hsr : sr.label? = none) : Stmt.Confined ok esc scope (.seq [sl, .label mid, sr]) := by
  have hlabels : labelsIn [sl, .label mid, sr] = [mid] := by
    simp [labelsIn_cons, hsl, hsr]
  refine confined_seq ?_ ?_
  · simp [hlabels, hm]
  · rw [hlabels]
    exact ⟨hl, trivial, hr, trivial⟩

mutual

lemma confined_value (A : Around ok esc) {e c x c'} {seen : List Nat} :
    ValueOf scopes trap e c x c' → e.Resolved ok seen → (c'.traps = true → trap ∈ esc) →
    x.Confined ok esc
  | .int, _, _ => trivial
  | .bool, _, _ => trivial
  | .string, _, _ => by
    refine ⟨confined_literal A (Expr.confinedAll_iff.2 ?_), by decide, trivial, trivial⟩
    simp [Expr.Confined]
  | .ident _, _, _ => trivial
  | .index ha hi, hr, ht =>
    ⟨confined_check (confined_value A ha hr.1 fun h => ht rfl)
      (confined_value A hi hr.2 fun h => ht rfl) (A.made _ _) (ht rfl), confined_elementAddr⟩
  | .binary hop hl hr, hres, ht =>
    ⟨mem_defined_of_wordOp hop, confined_value A hl hres.1 (ht ∘ (made_value hr).traps),
      confined_value A hr hres.2 ht⟩
  | .unary _ hx, hr, ht => by
    have hconf := confined_value A hx hr ht
    exact hconf
  | .flag _ hb, hr, ht =>
    ⟨confined_flag (A.made _ _) (A.made _ _)
      (fun hy hd => confined_branch A hb hr (.inl hy) (.inl hd) ht) (label?_of_branchOf hb),
      trivial⟩
  | .call hs, hr, ht => ⟨hr.1, confined_values A hs hr.2 ht⟩

lemma confined_branch (A : Around ok esc) {e yes no c s c' seen scope} :
    BranchOf scopes trap e yes no c s c' → e.Resolved ok seen → (yes ∈ scope ∨ yes ∈ esc) →
    (no ∈ scope ∨ no ∈ esc) → (c'.traps = true → trap ∈ esc) → s.Confined ok esc scope
  | .bool (v := v), _, hy, hn, _ => by
    cases v
    · exact hn
    · exact hy
  | .and hl hr, hres, hy, hn, ht => by
    refine confined_steps ?_ ?_ (A.made _ _) (label?_of_branchOf hl) (label?_of_branchOf hr)
    · exact confined_branch A hl hres.1 (.inl (by simp)) (hn.imp_left (mem_cons_of_mem _))
        (ht ∘ (made_branch hr).traps)
    · exact confined_branch A hr hres.2 (hy.imp_left (mem_cons_of_mem _))
        (hn.imp_left (mem_cons_of_mem _)) ht
  | .or hl hr, hres, hy, hn, ht => by
    refine confined_steps ?_ ?_ (A.made _ _) (label?_of_branchOf hl) (label?_of_branchOf hr)
    · exact confined_branch A hl hres.1 (hy.imp_left (mem_cons_of_mem _)) (.inl (by simp))
        (ht ∘ (made_branch hr).traps)
    · exact confined_branch A hr hres.2 (hy.imp_left (mem_cons_of_mem _))
        (hn.imp_left (mem_cons_of_mem _)) ht
  | .not hx, hres, hy, hn, ht => confined_branch A hx hres hn hy ht
  | .test _ hx, hres, hy, hn, ht => ⟨confined_value A hx hres ht, hy, hn⟩

lemma confined_values (A : Around ok esc) {es c xs c'} {seen : List Nat} :
    ValuesOf scopes trap es c xs c' → Tree.Expr.ResolvedAll ok seen es →
    (c'.traps = true → trap ∈ esc) → Expr.ConfinedAll ok esc xs
  | .nil, _, _ => trivial
  | .cons hx hs, hr, ht =>
    ⟨confined_value A hx hr.1 (ht ∘ (made_values hs).traps), confined_values A hs hr.2 ht⟩

end

/-! ### Arrays -/

def Registers (ts : List Expr) : Prop :=
  ∀ t ∈ ts, ∃ r, t = .temp r

lemma SizesOf.registers (h : SizesOf scopes trap es c moves ts c') : Registers ts := by
  induction h with
  | nil => simp [Registers]
  | cons _ _ ih => exact forall_mem_cons.2 ⟨⟨_, rfl⟩, ih⟩

lemma SizesOf.labelsIn (h : SizesOf scopes trap es c moves ts c') : labelsIn moves = [] := by
  induction h with
  | nil => rfl
  | cons _ _ ih => rw [labelsIn_cons, ih]; rfl

lemma confined_sizes (A : Around ok esc) (h : SizesOf scopes trap es c moves ts c')
    (hr : Tree.Expr.ResolvedAll ok seen es) (ht : c'.traps = true → trap ∈ esc) :
    Stmt.ConfinedAll ok esc scope moves := by
  induction h with
  | nil => trivial
  | cons hx hs ih => exact ⟨confined_value A hx hr.1 (ht ∘ hs.made.1.traps), ih hr.2 ht⟩

lemma AllocOf.labels (h : AllocOf size rest c alloc ref c') (A : Around ok esc) :
    ∀ l ∈ labelsIn alloc, l ∉ esc := by
  induction h with
  | one => simp [allocArray.header, labelsIn_cons]
  | rows _ ih =>
    simp only [rowsCode, labelsIn_append, forall_mem_append]
    refine ⟨⟨⟨?_, ?_⟩, ih⟩, ?_⟩
    · simp [allocArray.header, labelsIn_cons]
    · simp [labelsIn_cons, A.made]
    · simp [labelsIn_cons, jumpTo, A.made]

lemma AllocOf.ref_eq (h : AllocOf size rest c alloc ref c') : ∃ r, ref = .temp r := by
  cases h <;> exact ⟨_, rfl⟩

lemma confined_header (A : Around ok esc) (size base ref : String) :
    Stmt.ConfinedAll ok esc scope (allocArray.header (.temp size) (.temp base) (.temp ref)) :=
  ⟨⟨A.malloc, ⟨by decide, ⟨by decide, trivial, trivial⟩, trivial⟩, trivial⟩, ⟨trivial, trivial⟩,
    ⟨by decide, trivial, trivial⟩, trivial⟩

lemma confined_alloc (A : Around ok esc) {size : String}
    (h : AllocOf (.temp size) rest c alloc ref c') (hr : Registers rest)
    (hs : labelsIn alloc ⊆ scope) :
    Stmt.ConfinedAll ok esc scope alloc := by
  generalize hsize : Expr.temp size = s at h
  induction h generalizing size with
  | one => exact hsize ▸ confined_header A _ _ _
  | @rows s inner rest c alloc row c' ha ih =>
    subst hsize
    obtain ⟨⟨i, rfl⟩, hrest⟩ := forall_mem_cons.1 hr
    obtain ⟨row, rfl⟩ := ha.ref_eq
    simp only [rowsCode, labelsIn_append] at hs
    have halloc : labelsIn alloc ⊆ scope := fun l hl => hs (by simp [hl])
    have hbegin : numbered "rows.begin" (c.labels + 1) ∈ scope :=
      hs (by simp [labelsIn_cons])
    have hbody : numbered "rows.body" (c.labels + 2) ∈ scope :=
      hs (by simp [labelsIn_cons])
    have hend : numbered "rows.end" (c.labels + 3) ∈ scope :=
      hs (by simp [labelsIn_cons])
    refine confinedAll_append.2 ⟨confinedAll_append.2 ⟨confinedAll_append.2
      ⟨confined_header A _ _ _, ?_⟩, ih hrest halloc rfl⟩, ?_⟩
    · exact ⟨trivial, trivial, ⟨⟨by decide, trivial, trivial⟩, .inl hbody, .inl hend⟩, trivial,
        trivial⟩
    · exact ⟨⟨⟨by decide, trivial, by decide, trivial, trivial⟩, trivial⟩,
        ⟨by decide, trivial, trivial⟩, .inl hbegin, trivial, trivial⟩

lemma confined_array (A : Around ok esc) (h : ArrayOf scopes trap sizes elements c alloc ref c')
    (hz : Tree.Expr.ResolvedAll ok seen sizes) (he : Tree.Expr.ResolvedAll ok seen elements)
    (ht : c'.traps = true → trap ∈ esc) :
    Stmt.Confined ok esc scope (.seq (alloc ++ [.move (.temp reg) ref])) := by
  cases h with
  | sizes hs ha =>
    obtain ⟨⟨size, rfl⟩, hrest⟩ := forall_mem_cons.1 hs.registers
    obtain ⟨ref, rfl⟩ := ha.ref_eq
    refine confined_seq ?_ (confinedAll_append.2 ⟨confinedAll_append.2 ⟨?_, ?_⟩, trivial, trivial⟩)
    · simp only [labelsIn_append, hs.labelsIn, nil_append, forall_mem_append]
      exact ⟨ha.labels A, by simp [labelsIn_cons]⟩
    · exact confined_sizes A hs hz (ht ∘ (ha.made ⟨_, rfl⟩ hrest).1.traps)
    · exact confined_alloc A ha hrest fun l hl => by simp [hl]
  | elements hx =>
    refine confined_seq ?_ ⟨confined_literal A (confined_values A hx he ht),
      ⟨by decide, trivial, trivial⟩, trivial⟩
    simp [labelsIn_cons, literalCode]

/-! ### Statements -/

lemma ResultsOf.labelsIn (h : ResultsOf scopes c i ids moves) : labelsIn moves = [] := by
  induction h with
  | nil => rfl
  | cons _ _ ih => rw [labelsIn_cons, ih]; rfl

lemma ResultsOf.confined (h : ResultsOf scopes c i ids moves) :
    Stmt.ConfinedAll ok esc scope moves := by
  induction h with
  | nil => trivial
  | cons _ _ ih => exact ⟨trivial, ih⟩

end

lemma label?_of_stmtOf (h : StmtOf trap scopes s c (some code) c') : code.label? = none := by
  cases h <;> rfl

lemma labelsIn_of_stmtOf (h : StmtOf trap scopes s c code c') : labelsIn code.toList = [] := by
  cases code with
  | none => rfl
  | some code => simp [labelsIn_cons, label?_of_stmtOf h]

lemma labelsIn_of_stmtsOf {trap scopes ss codes} (h : StmtsOf trap scopes ss c codes c') :
    labelsIn codes = [] := by
  induction ss generalizing c codes with
  | nil => cases h; rfl
  | cons s ss ih =>
    cases h with
    | cons hs hss => rw [labelsIn_append, labelsIn_of_stmtOf hs, ih hss]; rfl

section

variable {ok : String → Prop} {esc : List String} {trap : String}

mutual

lemma confined_stmt (A : Around ok esc) {scopes s c code c'} {final : Scope} {seen n seen' n'}
    {scope : List String} : StmtOf trap scopes s c code c' →
    Tree.Stmt.Resolved ok final seen n s seen' n' → (c'.traps = true → trap ∈ esc) →
    Stmt.ConfinedAll ok esc scope code.toList
  | .block hs, .block hr, ht =>
    ⟨confined_seq (by simp [labelsIn_of_stmtsOf hs]) (confined_stmts A hs hr ht), trivial⟩
  | .declare _, _, _ => trivial
  | .var hx _, .var hr _ _, ht =>
    ⟨confined_value A hx hr ht, trivial⟩
  | .array ha _, .array hz he _ _, ht =>
    ⟨confined_array A ha hz he ht, trivial⟩
  | .assign _ hx, .assign _ hr, ht =>
    ⟨confined_value A hx hr ht, trivial⟩
  | .store ha hi hx, .assign hr hv, ht =>
    have hin := ht ((made_value hx).traps rfl)
    ⟨⟨⟨confined_check (confined_value A ha hr.1 fun _ => hin)
      (confined_value A hi hr.2 fun _ => hin) (A.made _ _) hin, confined_elementAddr⟩,
      confined_value A hx hv ht⟩, trivial⟩
  | .multi hx hm, .multi hf ha _, ht =>
    ⟨confined_seq (by simp [labelsIn_cons, hm.labelsIn])
      ⟨⟨hf, confined_values A hx ha ht⟩, hm.confined⟩, trivial⟩
  | .ifThen hc hy, .ifThen hrc hry, ht => by
    refine ⟨confined_seq ?_ ?_, trivial⟩
    · simp [labelsIn_cons, label?_of_branchOf hc, labelsIn_of_stmtOf hy, A.made]
    · refine confinedAll_append.2 ⟨confinedAll_append.2 ⟨⟨?_, trivial, trivial⟩, ?_⟩, trivial,
        trivial⟩
      · refine confined_branch A hc hrc (.inl ?_) (.inl ?_) (ht ∘ (made_stmt hy).traps)
        · simp [labelsIn_cons]
        · simp [labelsIn_cons]
      · exact confined_stmt A hy hry ht
  | .ifElse hc hy hn, .ifElse hrc hry hrn, ht => by
    refine ⟨confined_seq ?_ ?_, trivial⟩
    · simp [labelsIn_cons, label?_of_branchOf hc, labelsIn_of_stmtOf hy, labelsIn_of_stmtOf hn,
        jumpTo, A.made]
    · refine confinedAll_append.2 ⟨confinedAll_append.2 ⟨confinedAll_append.2
        ⟨confinedAll_append.2 ⟨⟨?_, trivial, trivial⟩, ?_⟩, .inl ?_, trivial, trivial⟩, ?_⟩,
        trivial, trivial⟩
      · refine confined_branch A hc hrc (.inl ?_) (.inl ?_)
          (ht ∘ (made_stmt hn).traps ∘ (made_stmt hy).traps)
        · simp [labelsIn_cons]
        · simp [labelsIn_cons, jumpTo]
      · exact confined_stmt A hy hry (ht ∘ (made_stmt hn).traps)
      · simp [labelsIn_cons]
      · exact confined_stmt A hn hrn ht
  | .loop hc hb, .loop hrc hrb, ht => by
    refine ⟨confined_seq ?_ ?_, trivial⟩
    · simp [labelsIn_cons, label?_of_branchOf hc, labelsIn_of_stmtOf hb, jumpTo, A.made]
    · refine confinedAll_append.2 ⟨confinedAll_append.2 ⟨⟨trivial, ?_, trivial, trivial⟩, ?_⟩,
        .inl ?_, trivial, trivial⟩
      · refine confined_branch A hc hrc (.inl ?_) (.inl ?_) (ht ∘ (made_stmt hb).traps)
        · simp [labelsIn_cons]
        · simp [labelsIn_cons, jumpTo]
      · exact confined_stmt A hb hrb ht
      · simp [labelsIn_cons]
  | .ret hx, .ret hr, ht => ⟨confined_values A hx hr ht, trivial⟩
  | .expr hx, .expr hr, ht => ⟨confined_value A hx hr ht, trivial⟩

lemma confined_stmts (A : Around ok esc) {scopes ss c codes c'} {final : Scope} {seen n seen' n'}
    {scope : List String} : StmtsOf trap scopes ss c codes c' →
    Tree.Stmts.Resolved ok final seen n ss seen' n' → (c'.traps = true → trap ∈ esc) →
    Stmt.ConfinedAll ok esc scope codes
  | .nil, _, _ => trivial
  | .cons hs hss, .cons hr hrs, ht =>
    confinedAll_append.2 ⟨confined_stmt A hs hr (ht ∘ (made_stmts hss).traps),
      confined_stmts A hss hrs ht⟩

end

end

/-! ### Functions -/

lemma labelsIn_ending (trap : String) (hasResults traps : Bool) :
    labelsIn (ending trap hasResults traps) = if traps then [trap] else [] := by
  cases hasResults <;> cases traps <;> rfl

lemma ParamsOf.confined {scope ps regs ok esc outer} (h : ParamsOf scope i ps c regs moves c') :
    labelsIn moves = [] ∧ Stmt.ConfinedAll ok esc outer moves := by
  induction h with
  | nil => exact ⟨rfl, trivial⟩
  | cons _ _ ih => exact ⟨by rw [labelsIn_cons, ih.1]; rfl, trivial, ih.2⟩

lemma around_trap (hm : ok "malloc") (f : String) (traps : Bool) :
    Around ok (if traps then [trapOf f] else []) := by
  refine ⟨hm, fun hint n => ?_⟩
  cases traps
  · simp
  · simpa using numbered_ne_trapOf hint f n

lemma confined_body (more : Bool)
    (hmoves : labelsIn moves = [] ∧ Stmt.ConfinedAll ok esc [] moves) (hlabels : labelsIn body = [])
    (hbody : Stmt.ConfinedAll ok esc [] body) :
    labelsIn (moves ++ [.seq body] ++ if more then [.ret []] else []) = [] ∧
      Stmt.ConfinedAll ok esc [] (moves ++ [.seq body] ++ if more then [.ret []] else []) := by
  have hseq : Stmt.Confined ok esc [] (.seq body) :=
    confined_seq (by simp [hlabels]) (by rwa [hlabels])
  refine ⟨?_, confinedAll_append.2 ⟨confinedAll_append.2 ⟨hmoves.2, hseq, trivial⟩, ?_⟩⟩
  · cases more <;> simp [hmoves.1, labelsIn_cons]
  · cases more
    · trivial
    · exact ⟨trivial, trivial⟩

/-- The body of a resolved function: confined statements, and after them the trap, if any of
them may go to it. -/
lemma body_function (hm : ok "malloc") (h : FunctionOf outer f c g c') (hr : f.Resolved ok n n') :
    ∃ ss, g.body = .seq (ss ++ if c'.traps then trapEnd g.name "_outOfBounds" else []) ∧
      labelsIn ss = [] ∧
      Stmt.ConfinedAll ok (if c'.traps then [trapOf g.name] else []) [] ss := by
  obtain ⟨hscope, hbody, hp, hs⟩ := h
  obtain ⟨hscope', hbody', -, hss⟩ := hr
  cases hbody.symm.trans hbody'
  have hesc : c'.traps = true → trapOf f.name ∈ if c'.traps then [trapOf f.name] else [] := by
    intro ht
    simp [ht]
  obtain ⟨hlabels, hconf⟩ := confined_body (f.returns.isEmpty || c'.traps) hp.confined
    (labelsIn_of_stmtsOf hs) (confined_stmts (around_trap hm f.name c'.traps) hs hss hesc)
  refine ⟨_, ?_, hlabels, hconf⟩
  simp only [ending, Bool.not_not, append_assoc]
  rfl

/-- The code of a resolved function is confined. -/
lemma confined_function (hm : ok "malloc") (ho : ok "_outOfBounds")
    (h : FunctionOf outer f c g c') (hr : f.Resolved ok n n') : g.Confined ok := by
  obtain ⟨ss, hbody, hlabels, hconf⟩ := body_function hm h hr
  refine ⟨ss, _, _, hbody, by rwa [hlabels], ?_⟩
  cases ht : c'.traps with
  | false => exact .inl ⟨rfl, rfl⟩
  | true => exact .inr ⟨_, ho, rfl, rfl, by simp [hlabels]⟩

lemma FunctionsOf.mem (h : FunctionsOf outer fs c gs) (hr : Tree.Functions.Resolved ok n fs)
    (hg : g ∈ gs) : ∃ f ∈ fs, ∃ c c' n n', FunctionOf outer f c g c' ∧ f.Resolved ok n n' := by
  induction h generalizing n with
  | nil => cases hg
  | @cons f fs c g' c' gs hf _ ih =>
    cases hr with
    | cons hr hrs =>
      rcases mem_cons.1 hg with rfl | hg
      · exact ⟨f, by simp, _, _, _, _, hf, hr⟩
      · obtain ⟨f', hf', hrest⟩ := ih hrs hg
        exact ⟨f', by simp [hf'], hrest⟩

end TreeMachine.Structured.Compile

namespace TreeMachine.Structured

open Machine
open Compile

variable {name : String}

/-! ### Programs -/

section

variable {p q : Tree.Program} {u : CodeUnit}

lemma isSome_lookup (h : name ∈ u.functions.map (·.name)) : (u.lookup name).isSome := by
  obtain ⟨f, hf, rfl⟩ := mem_map.1 h
  simp only [CodeUnit.lookup, List.find?_isSome]
  exact ⟨f, hf, by simp⟩

lemma callable_routine (hu : CodeUnit.ofTree q = .ok u) (hp : Pointless name)
    (hr : (Routine.ofName? name).isSome) : Callable u name := by
  obtain ⟨scope, -, hfs⟩ := functionsOf_of_ofTree hu
  by_cases hmem : name ∈ Linear.Program.unitNames u
  · refine .inl (isSome_lookup ?_)
    rcases hfs.names.2 name hmem with ⟨f, hf, rfl | rfl⟩ | ⟨hint, k, rfl, -⟩
    · rw [hfs.names.1]
      exact mem_map_of_mem hf
    · exact absurd hp (not_pointless_trapOf f.name)
    · exact absurd hp (not_pointless_numbered hint k)
  · exact .inr ⟨hr, hmem⟩

lemma callable_of_callee (hu : CodeUnit.ofTree q = .ok u) (h : q.Callee name) :
    Callable u name := by
  obtain ⟨scope, -, hfs⟩ := functionsOf_of_ofTree hu
  rcases h with h | h
  · exact .inl (isSome_lookup (hfs.names.1 ▸ h))
  · have hall : ∀ b ∈ Tree.Scope.builtins.map (·.1), Pointless b ∧ (Routine.ofName? b).isSome := by
      decide
    exact callable_routine hu (hall name h).1 (hall name h).2

/-- The code of a resolved program is confined. -/
lemma confined_of_ofTree (hp : p.resolve = .ok q) (hu : CodeUnit.ofTree q = .ok u) :
    ∀ g ∈ u.functions, g.Confined (Callable u) := by
  intro g hg
  obtain ⟨scope, -, hfs⟩ := functionsOf_of_ofTree hu
  obtain ⟨n, hr⟩ := Tree.resolved_of_resolve hp fun _ => callable_of_callee hu
  obtain ⟨f, -, c, c', n, n', hf, hres⟩ := hfs.mem hr hg
  exact confined_function (callable_routine hu (by decide) (by decide))
    (callable_routine hu (by decide) (by decide)) hf hres

/-- The names in the code of a resolved program are all different if no function has a point in
its name. -/
lemma nodup_unitNames (hp : p.resolve = .ok q) (hu : CodeUnit.ofTree q = .ok u)
    (hn : ∀ f ∈ q.functions, Pointless f.name) : (Linear.Program.unitNames u).Nodup := by
  obtain ⟨scope, -, hfs⟩ := functionsOf_of_ofTree hu
  exact hfs.nodup hn (Tree.nodup_of_resolve hp)

end

end TreeMachine.Structured
