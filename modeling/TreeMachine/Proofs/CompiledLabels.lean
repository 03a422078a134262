import TreeMachine.Proofs.Confined
import TreeMachine.Proofs.Generated
import TreeMachine.Proofs.Layout

/-!
# Labels of compiled code

Every label in compiled code is made once: it carries a number that the label counter has
passed while the code was compiled. Only the trap's label is named after its function.
-/

open List

namespace TreeMachine.Structured.Compile

open TreeMachine.Tree
open TreeMachine.Linear

variable {c c' : Compiling} {moves : List Stmt} {outer : List Scope}

/-- The last number of a label, and whether the trap was asked for. -/
@[simp] def point (c : Compiling) : Nat × Bool :=
  (c.labels, c.traps)

/-- Labels that were made from `a` to `b`. The trap is asked for once and for all. -/
structure Made (a b : Nat × Bool) (ls : List String) : Prop where
  le : a.1 ≤ b.1
  nodup : ls.Nodup
  number : ∀ l ∈ ls, ∃ hint k, l = numbered hint k ∧ a.1 < k ∧ k ≤ b.1
  traps : a.2 = true → b.2 = true

section

variable {a b d : Nat × Bool} {ls ks : List String}

lemma Made.nil (a : Nat × Bool) : Made a a [] :=
  ⟨le_rfl, .nil, by simp, id⟩

lemma Made.trap (a : Nat × Bool) : Made a (a.1, true) [] :=
  ⟨le_rfl, .nil, by simp, fun _ => rfl⟩

lemma Made.one (hint : String) (a : Nat × Bool) : Made a (a.1 + 1, a.2) [numbered hint (a.1 + 1)] :=
  ⟨Nat.le_succ _, by simp, fun l hl => ⟨hint, a.1 + 1, by simpa using hl, by simp, le_rfl⟩, id⟩

lemma Made.append (h : Made a b ls) (g : Made b d ks) : Made a d (ls ++ ks) := by
  refine ⟨le_trans h.le g.le, nodup_append.2 ⟨h.nodup, g.nodup, ?_⟩, ?_, g.traps ∘ h.traps⟩
  · rintro l hl _ hk rfl
    obtain ⟨hint, k, rfl, -, hle⟩ := h.number l hl
    obtain ⟨hint', k', heq, hlt, -⟩ := g.number _ hk
    have := (numbered_inj.1 heq).2
    omega
  · intro l hl
    rcases mem_append.1 hl with hl | hl
    · obtain ⟨hint, k, rfl, hlt, hle⟩ := h.number l hl
      exact ⟨hint, k, rfl, hlt, le_trans hle g.le⟩
    · obtain ⟨hint, k, rfl, hlt, hle⟩ := g.number l hl
      exact ⟨hint, k, rfl, lt_of_le_of_lt h.le hlt, hle⟩

lemma Made.two (hint hint' : String) (a : Nat × Bool) :
    Made a (a.1 + 2, a.2) [numbered hint (a.1 + 1), numbered hint' (a.1 + 2)] :=
  (Made.one hint a).append (.one hint' _)

lemma Made.three (hint hint' hint'' : String) (a : Nat × Bool) : Made a (a.1 + 3, a.2)
    [numbered hint (a.1 + 1), numbered hint' (a.1 + 2), numbered hint'' (a.1 + 3)] :=
  (Made.two hint hint' a).append (.one hint'' _)

lemma Made.perm (h : Made a b ls) (hp : ls.Perm ks) : Made a b ks :=
  ⟨h.le, hp.nodup_iff.1 h.nodup, fun l hl => h.number l (hp.mem_iff.2 hl), h.traps⟩

end

/-! ### Expressions -/

section

variable {scopes : List Scope} {trap : String}

lemma marks_codes (cs : List Char) :
    marks (itemsOfExprs (cs.map fun ch => .const (Utf8.codeOfChar ch))) = [] := by
  induction cs with
  | nil => rfl
  | cons c cs ih => simp [itemsOfExprs, itemsOfExpr, marks, ih]

lemma marks_elementMoves (base : String) (i : Nat) (xs : List Expr) :
    marks (itemsOfAll (elementMoves (.temp base) i xs)) = marks (itemsOfExprs xs) := by
  induction xs generalizing i with
  | nil => rfl
  | cons x xs ih =>
    simp [elementMoves, itemsOfAll, itemsOf, itemsOfExpr, itemsOfExprs, plus, marks, ih]

lemma marks_literal (base : String) (xs : List Expr) :
    marks (itemsOf (literalCode (.temp base) xs)) = marks (itemsOfExprs xs) := by
  simp [literalCode, itemsOf, itemsOfAll, itemsOfExpr, itemsOfExprs, malloc, marks,
    marks_elementMoves]

lemma marks_check (a i ok trap : String) (array idx : Expr) :
    marks (itemsOf (checkCode (.temp a) (.temp i) array idx ok trap)) =
      marks (itemsOfExpr array) ++ marks (itemsOfExpr idx) ++ [ok] := by
  simp [checkCode, itemsOf, itemsOfAll, itemsOfExpr, word, marks]

lemma marks_flag (t yes done : String) (test : Stmt) :
    marks (itemsOf (flagCode (.temp t) test yes done)) = marks (itemsOf test) ++ [yes, done] := by
  simp [flagCode, itemsOf, itemsOfAll, itemsOfExpr, marks]

lemma marks_steps (l r : Stmt) (mid : String) :
    marks (itemsOf (.seq [l, .label mid, r])) = marks (itemsOf l) ++ mid :: marks (itemsOf r) := by
  simp [itemsOf, itemsOfAll, marks]

lemma marks_elementAddr (a i : String) :
    marks (itemsOfExpr (elementAddr (.temp a) (.temp i))) = [] := rfl

mutual

lemma made_value {e c x c'} :
    ValueOf scopes trap e c x c' → Made (point c) (point c') (marks (itemsOfExpr x))
  | .int => .nil (point c)
  | .bool => .nil (point c)
  | .string => by
    rw [itemsOfExpr, Linear.marks_append, Linear.marks_append, marks_literal, marks_codes]
    exact .nil (point c)
  | .ident _ => .nil (point c)
  | .index ha hi => by
    have h := (((made_value ha).append (made_value hi)).append
      (.one "bounds.ok" _)).append (.trap _)
    simpa [itemsOfExpr, marks_check, marks_elementAddr, marks] using h
  | .binary _ hl hr => by
    simpa [itemsOfExpr, marks] using (made_value hl).append (made_value hr)
  | .unary _ hx => by simpa [itemsOfExpr, marks] using made_value hx
  | .flag _ hb => by
    rw [itemsOfExpr, Linear.marks_append, Linear.marks_append, marks_flag]
    have h := (Made.two "bool.true" "bool.done" (point c)).append (made_branch hb)
    simpa [itemsOfExpr, marks] using h.perm perm_append_comm
  | .call hs => by simpa [itemsOfExpr, marks] using made_values hs

lemma made_branch {e yes no c s c'} :
    BranchOf scopes trap e yes no c s c' → Made (point c) (point c') (marks (itemsOf s))
  | .bool => .nil (point c)
  | .and hl hr => by
    rw [marks_steps]
    exact (((Made.one "and.rhs" (point c)).append (made_branch hl)).append (made_branch hr)).perm
      perm_middle.symm
  | .or hl hr => by
    rw [marks_steps]
    exact (((Made.one "or.rhs" (point c)).append (made_branch hl)).append (made_branch hr)).perm
      perm_middle.symm
  | .not hx => made_branch hx
  | .test _ hx => by simpa [itemsOf, marks] using made_value hx

lemma made_values {es c xs c'} :
    ValuesOf scopes trap es c xs c' → Made (point c) (point c') (marks (itemsOfExprs xs))
  | .nil => .nil (point c)
  | .cons hx hs => by
    simpa [itemsOfExprs] using (made_value hx).append (made_values hs)

end

/-! ### Statements -/

lemma SizesOf.made (h : SizesOf scopes trap es c moves ts c') :
    Made (point c) (point c') (marks (itemsOfAll moves)) ∧ ∀ t ∈ ts, ∃ r, t = .temp r := by
  induction h with
  | nil => exact ⟨.nil _, by simp⟩
  | cons hx _ ih =>
    refine ⟨?_, forall_mem_cons.2 ⟨⟨_, rfl⟩, ih.2⟩⟩
    simpa [itemsOfAll, itemsOf, itemsOfExpr, marks] using (made_value hx).append ih.1

lemma AllocOf.made (h : AllocOf size rest c alloc ref c') (hs : ∃ r, size = .temp r)
    (hr : ∀ t ∈ rest, ∃ r, t = .temp r) :
    Made (point c) (point c') (marks (itemsOfAll alloc)) ∧ ∃ r, ref = .temp r := by
  induction h with
  | @one size c =>
    obtain ⟨r, rfl⟩ := hs
    exact ⟨.nil (point c), _, rfl⟩
  | @rows size inner rest c alloc row c' ha ih =>
    obtain ⟨r, rfl⟩ := hs
    obtain ⟨hinner, hrest⟩ := forall_mem_cons.1 hr
    obtain ⟨hm, row, rfl⟩ := ih hinner hrest
    refine ⟨?_, _, rfl⟩
    have h := (Made.three "rows.begin" "rows.body" "rows.end" (point c)).append hm
    refine h.perm ?_
    simp only [rowsCode, allocArray.header, Linear.itemsOfAll_append, Linear.marks_append]
    simp [itemsOfAll, itemsOf, itemsOfExpr, itemsOfExprs, malloc, plus, times, word, jumpTo,
      marks, perm_iff_count, count_append, count_cons]

lemma ArrayOf.made {sizes elements alloc ref}
    (h : ArrayOf scopes trap sizes elements c alloc ref c') :
    Made (point c) (point c') (marks (itemsOfAll alloc) ++ marks (itemsOfExpr ref)) := by
  cases h with
  | sizes hs ha =>
    obtain ⟨hm, hts⟩ := hs.made
    obtain ⟨hsize, hrest⟩ := forall_mem_cons.1 hts
    obtain ⟨hm', r, rfl⟩ := ha.made hsize hrest
    simpa [Linear.itemsOfAll_append, itemsOfExpr, marks] using hm.append hm'
  | elements hx =>
    simpa [itemsOfAll, marks_literal, plus, word, itemsOfExpr, marks] using made_values hx

lemma ResultsOf.marks (h : ResultsOf scopes c i ids moves) : marks (itemsOfAll moves) = [] := by
  induction h with
  | nil => rfl
  | cons _ _ ih => simpa [itemsOfAll, itemsOf, itemsOfExpr, Linear.marks] using ih

end

mutual

lemma made_stmt {trap : String} {scopes s c code c'} :
    StmtOf trap scopes s c code c' → Made (point c) (point c') (marks (itemsOfAll code.toList))
  | .block hs => by simpa [itemsOfAll, itemsOf, marks] using made_stmts hs
  | .declare _ => .nil (point c)
  | .var hx _ => by
    simpa [itemsOfAll, itemsOf, itemsOfExpr, marks] using made_value hx
  | .array ha _ => by
    simpa [itemsOfAll, itemsOf, itemsOfExpr, marks, Linear.itemsOfAll_append] using ha.made
  | .assign _ hx => by
    simpa [itemsOfAll, itemsOf, itemsOfExpr, marks] using made_value hx
  | .store ha hi hx => by
    have h := ((((made_value ha).append (made_value hi)).append
      (.one "bounds.ok" _)).append (.trap _)).append (made_value hx)
    simpa [itemsOfAll, itemsOf, itemsOfExpr, marks, marks_check, marks_elementAddr] using h
  | .multi hx hm => by
    simpa [itemsOfAll, itemsOf, itemsOfExpr, marks, hm.marks] using made_values hx
  | .ifThen hc hy => by
    refine (((Made.two "if.then" "if.end" (point c)).append (made_branch hc)).append
      (made_stmt hy)).perm ?_
    simp [Linear.itemsOfAll_append, itemsOfAll, itemsOf, marks, perm_iff_count,
      count_append, count_cons]
    omega
  | .ifElse hc hy hn => by
    refine ((((Made.three "if.then" "if.end" "if.else" (point c)).append (made_branch hc)).append
      (made_stmt hy)).append (made_stmt hn)).perm ?_
    simp [Linear.itemsOfAll_append, itemsOfAll, itemsOf, itemsOfExpr, jumpTo, marks,
      perm_iff_count, count_append, count_cons]
    omega
  | .loop hc hb => by
    refine (((Made.three "while.begin" "while.body" "while.end" (point c)).append
      (made_branch hc)).append (made_stmt hb)).perm ?_
    simp [Linear.itemsOfAll_append, itemsOfAll, itemsOf, itemsOfExpr, jumpTo, marks,
      perm_iff_count, count_append, count_cons]
    omega
  | .ret hx => by simpa [itemsOfAll, itemsOf, marks] using made_values hx
  | .expr hx => by simpa [itemsOfAll, itemsOf, marks] using made_value hx

lemma made_stmts {trap : String} {scopes ss c codes c'} :
    StmtsOf trap scopes ss c codes c' → Made (point c) (point c') (marks (itemsOfAll codes))
  | .nil => .nil (point c)
  | .cons hs hss => by
    simpa [Linear.itemsOfAll_append] using (made_stmt hs).append (made_stmts hss)

end

/-! ### Functions -/

lemma ParamsOf.marks (h : ParamsOf scope i ps c regs moves c') :
    marks (itemsOfAll moves) = [] ∧ point c' = point c := by
  induction h with
  | nil => exact ⟨rfl, rfl⟩
  | cons _ _ ih =>
    refine ⟨?_, ih.2⟩
    simpa [itemsOfAll, itemsOf, itemsOfExpr, Linear.marks] using ih.1

lemma FunctionOf.names (h : FunctionOf outer f c g c') :
    g.name = f.name ∧ ∃ ls traps, Made (c.labels, false) (point c') ls ∧
      (traps = [] ∨ traps = [trapOf f.name]) ∧
      Linear.Program.namesOf g = f.name :: (ls ++ traps) := by
  obtain ⟨-, -, hp, hs⟩ := h
  have hmade := made_stmts hs
  obtain ⟨hmoves, hlabels⟩ := hp.marks
  rw [hlabels] at hmade
  refine ⟨rfl, _, if c'.traps then [trapOf f.name] else [], hmade, ?_, ?_⟩
  · cases c'.traps <;> simp
  · simp only [Linear.Program.namesOf, itemsOf, Linear.itemsOfAll_append, Linear.marks_append,
      itemsOfAll, hmoves, ending, trapOf]
    cases c'.traps <;> cases f.returns.isEmpty <;>
      simp [itemsOfAll, itemsOf, itemsOfExpr, itemsOfExprs, marks]

lemma trapOf_inj (h : trapOf f = trapOf g) : f = g := by
  unfold trapOf at h
  exact (String.append_left_inj ".bounds").1 h

lemma numbered_ne_trapOf (hint f : String) (n : Nat) : numbered hint n ≠ trapOf f :=
  numbered_ne_append (c := 's') (by decide) (by decide)

lemma not_pointless_trapOf (f : String) : ¬Pointless (trapOf f) := by
  simp [Pointless, trapOf]

/-- A name in the code of a function is its own, that of its trap, or a label made for it. -/
lemma FunctionOf.label (h : FunctionOf outer f c g c') (hl : l ∈ Linear.Program.namesOf g) :
    l = f.name ∨ l = trapOf f.name ∨
      ∃ hint k, l = numbered hint k ∧ c.labels < k ∧ k ≤ c'.labels := by
  obtain ⟨-, ls, traps, hmade, htraps, hnames⟩ := h.names
  rw [hnames, mem_cons, mem_append] at hl
  rcases hl with rfl | hl | hl
  · exact .inl rfl
  · exact .inr (.inr (hmade.number l hl))
  · rcases htraps with rfl | rfl <;> simp_all

lemma FunctionsOf.names (h : FunctionsOf outer fs c gs) :
    gs.map (·.name) = fs.map (·.name) ∧ ∀ l ∈ gs.flatMap Linear.Program.namesOf,
      (∃ f ∈ fs, l = f.name ∨ l = trapOf f.name) ∨ ∃ hint k, l = numbered hint k ∧
        c.labels < k := by
  induction h with
  | nil => simp
  | @cons f fs c g c' gs hf _ ih =>
    obtain ⟨hname, ls, traps, hmade, -, -⟩ := hf.names
    refine ⟨by simp [hname, ih.1], fun l hl => ?_⟩
    rw [flatMap_cons, mem_append] at hl
    rcases hl with hl | hl
    · rcases hf.label hl with hl | hl | ⟨hint, k, rfl, hlt, -⟩
      · exact .inl ⟨f, by simp, .inl hl⟩
      · exact .inl ⟨f, by simp, .inr hl⟩
      · exact .inr ⟨hint, k, rfl, hlt⟩
    · rcases ih.2 l hl with ⟨f', hf', hl⟩ | ⟨hint, k, rfl, hlt⟩
      · exact .inl ⟨f', by simp [hf'], hl⟩
      · exact .inr ⟨hint, k, rfl, lt_of_le_of_lt hmade.le hlt⟩

/-- The names in compiled code are all different if those of the functions are, and have no
point. -/
lemma FunctionsOf.nodup (h : FunctionsOf outer fs c gs) (hp : ∀ f ∈ fs, Pointless f.name)
    (hn : (fs.map (·.name)).Nodup) : (gs.flatMap Linear.Program.namesOf).Nodup := by
  induction h with
  | nil => simp
  | @cons f fs c g c' gs hf hfs ih =>
    obtain ⟨-, ls, traps, hmade, htraps, hnames⟩ := hf.names
    rw [map_cons, nodup_cons] at hn
    obtain ⟨hpf, hpfs⟩ := forall_mem_cons.1 hp
    have htrap : ∀ l ∈ traps, l = trapOf f.name := by
      rcases htraps with rfl | rfl <;> simp
    have hother : ∀ f' ∈ fs, f'.name ≠ f.name := fun f' hf' heq =>
      hn.1 (heq ▸ mem_map_of_mem hf')
    rw [flatMap_cons, nodup_append]
    refine ⟨?_, ih hpfs hn.2, ?_⟩
    · rw [hnames, nodup_cons, nodup_append]
      refine ⟨?_, hmade.nodup, ?_, ?_⟩
      · rw [mem_append]
        rintro (hl | hl)
        · obtain ⟨hint, k, heq, -⟩ := hmade.number _ hl
          exact numbered_ne hpf heq.symm
        · exact not_pointless_trapOf f.name (htrap _ hl ▸ hpf)
      · rcases htraps with rfl | rfl <;> simp
      · rintro l hl _ ht rfl
        obtain ⟨hint, k, heq, -⟩ := hmade.number _ hl
        exact numbered_ne_trapOf hint f.name k (heq.symm.trans (htrap _ ht))
    · -- a name, a trap or a label of this function against those of the others
      rintro l hl _ hl' rfl
      rcases hf.label hl with rfl | rfl | ⟨hint, k, rfl, -, hle⟩ <;>
        rcases hfs.names.2 _ hl' with ⟨f', hf', heq | heq⟩ | ⟨hint', k', heq, hlt⟩
      · exact hother f' hf' heq.symm
      · exact not_pointless_trapOf f'.name (heq ▸ hpf)
      · exact numbered_ne hpf heq.symm
      · exact not_pointless_trapOf f.name (heq ▸ hpfs f' hf')
      · exact hother f' hf' (trapOf_inj heq).symm
      · exact numbered_ne_trapOf hint' f.name k' heq.symm
      · exact numbered_ne (hpfs f' hf') heq
      · exact numbered_ne_trapOf hint f'.name k heq
      · exact absurd ((numbered_inj.1 heq).2 ▸ hlt) (not_lt.2 hle)

end TreeMachine.Structured.Compile
