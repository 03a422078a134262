import TreeMachine.Proofs.Assembled
import TreeMachine.Proofs.LoweredUnit

/-!
# Registers that lowering makes

Lowering makes a register for the result of a call inside of an expression, and for a value that is
saved while statements of a later sibling run. It counts them for the whole unit and avoids the
registers that the unit names, however these are called. So each of them is assigned by one
statement, and is read in the code after this statement only.

The counter goes up while code is lowered, but the numbers do not go up along the code: the result
of a call is numbered before its arguments, and a value is saved in front of code that was lowered
before. Only that numbers belong to one stretch of code matters (`Numbers`). -/

open List

namespace TreeMachine.Flat

open Lowering

variable {s : Stmt} {r reg : String} {code code' moves : List Stmt} {xs ys : List Expr}
  {p : String → Bool} {k' : Nat} {ready ready' : List String}

/-! ### Registers of flat code -/

def Expr.reads : Expr → List String
  | .const _ => []
  | .temp reg => [reg]
  | .mem addr => addr.reads
  | .name _ => []
  | .binop _ left right => left.reads ++ right.reads
  | .unop _ x => x.reads

/-- The registers that the expressions of a statement read. -/
def Stmt.reads : Stmt → List String
  | .moveTemp _ src => src.reads
  | .moveMem addr src => addr.reads ++ src.reads
  | .exp x => x.reads
  | .jump target => target.reads
  | .cjump cond _ _ => cond.reads
  | .label _ => []
  | .ret values => values.flatMap Expr.reads
  | .call _ _ target args => target.reads ++ args.flatMap Expr.reads

def Stmt.dest? : Stmt → Option String
  | .moveTemp name _ => some name
  | .call _ dest _ _ => if dest.isEmpty then none else some dest
  | _ => none

def Stmt.registers (s : Stmt) : List String :=
  s.dest?.toList ++ s.reads

def dests (code : List Stmt) : List String :=
  code.filterMap Stmt.dest?

lemma mem_registers : r ∈ s.registers ↔ s.dest? = some r ∨ r ∈ s.reads := by
  simp [Stmt.registers]

lemma mem_dests : r ∈ dests code ↔ ∃ s ∈ code, s.dest? = some r :=
  mem_filterMap

lemma dests_append (code code' : List Stmt) : dests (code ++ code') = dests code ++ dests code' :=
  filterMap_append

lemma dest?_call (h : (Stmt.call returns dest f xs).dest? = some reg) : reg = dest := by
  simp only [Stmt.dest?] at h
  split at h
  · cases h
  · exact (Option.some.inj h).symm

/-! ### Numbers of registers -/

/-- A statement assigns a register that lowering has made under a number: for the result of a call,
or for a value that is saved. -/
def Introduces (s : Stmt) (n : Nat) : Prop :=
  (∃ f xs, s = .call 0 (numbered "lc" n) f xs) ∨ ∃ x, s = .moveTemp (numbered "lt" n) x

/-- The statements of code that assign registers which satisfy a condition. -/
def assigning (p : String → Bool) (code : List Stmt) : List Stmt :=
  code.filter fun s => s.dest?.any p

lemma assigning_append (p : String → Bool) (code code' : List Stmt) :
    assigning p (code ++ code') = assigning p code ++ assigning p code' :=
  filter_append ..

lemma assigning_cons (hs : s.dest? = some r) (hr : p r = true) (code : List Stmt) :
    assigning p (s :: code) = s :: assigning p code :=
  filter_cons_of_pos (by simp [hs, hr])

lemma assigning_single_of_not (h : ∀ r, s.dest? = some r → p r = false) : assigning p [s] = [] := by
  cases hd : s.dest? with
  | none => simp [assigning, hd]
  | some r => simp [assigning, hd, h r hd]

lemma mem_assigning (h : s ∈ code) (hs : s.dest? = some r) (hr : p r = true) :
    s ∈ assigning p code :=
  mem_filter.2 ⟨h, by simp [hs, hr]⟩

section

variable {taken : Taken} {T : List String}

lemma dest?_of_introduces (h : Introduces s n) : ∃ hint, s.dest? = some (numbered hint n) := by
  rcases h with ⟨f, xs, rfl⟩ | ⟨x, rfl⟩
  · exact ⟨"lc", by simp [Stmt.dest?, numbered_ne_empty]⟩
  · exact ⟨"lt", rfl⟩

/-- Every register that code introduces has a number of its own, which the counter has passed while
the code was lowered. -/
structure Numbers (taken : Taken) (k : Nat) (code : List Stmt) (k' : Nat) : Prop where
  le : k ≤ k'
  apart : ∃ ns : List Nat, ns.Nodup ∧ (∀ n ∈ ns, k < n ∧ n ≤ k') ∧
    List.Forall₂ Introduces (assigning (· ∉ taken) code) ns

lemma Numbers.nil (k : Nat) : Numbers taken k [] k :=
  ⟨le_refl k, [], nodup_nil, by simp, .nil⟩

lemma Numbers.append (h : Numbers taken a code b) (h' : Numbers taken a' code' b')
    (hs : k ≤ a ∧ b ≤ a' ∧ b' ≤ k' ∨ k ≤ a' ∧ b' ≤ a ∧ b ≤ k') :
    Numbers taken k (code ++ code') k' := by
  obtain ⟨hle, ns, hnd, hns, hi⟩ := h
  obtain ⟨hle', ns', hnd', hns', hi'⟩ := h'
  refine ⟨by omega, ns ++ ns', nodup_append.2 ⟨hnd, hnd', fun n hn m hm => ?_⟩, ?_, ?_⟩
  · have := hns n hn
    have := hns' m hm
    omega
  · refine forall_mem_append.2 ⟨fun n hn => ?_, fun n hn => ?_⟩
    · have := hns n hn
      omega
    · have := hns' n hn
      omega
  · rw [assigning_append]
    exact rel_append hi hi'

lemma Numbers.trans (h : Numbers taken k code k1) (h' : Numbers taken k1 code' k') :
    Numbers taken k (code ++ code') k' :=
  h.append h' (.inl ⟨le_refl k, le_refl k1, le_refl k'⟩)

lemma Numbers.known (h : ∀ r, s.dest? = some r → r ∈ taken) (k : Nat) : Numbers taken k [s] k := by
  have hnone : assigning (· ∉ taken) [s] = [] :=
    assigning_single_of_not fun r hr => by simpa using h r hr
  exact ⟨le_refl k, [], nodup_nil, by simp, by rw [hnone]; exact .nil⟩

lemma Numbers.fresh (h : Fresh taken hint k reg k') (hd : s.dest? = some reg)
    (hs : Introduces s k') : Numbers taken k [s] k' := by
  refine ⟨le_of_lt h.lt, [k'], by simp, by simpa using h.lt, ?_⟩
  rw [assigning_cons hd (by simpa using h.free)]
  exact .cons hs .nil

lemma Numbers.unique {k : Nat} {before after : List Stmt}
    (h : Numbers taken k (before ++ s :: after) k') (hs : s.dest? = some reg)
    (hfree : reg ∉ taken) :
    ∀ t ∈ before ++ after, t.dest? ≠ some reg := by
  have hp : decide (reg ∉ taken) = true := decide_eq_true hfree
  obtain ⟨-, ns, hnd, -, hi⟩ := h
  rw [assigning_append, assigning_cons hs hp] at hi
  have hb := forall₂_take_append _ _ _ hi.flip
  have hrest := forall₂_drop_append _ _ _ hi.flip
  rw [← take_append_drop (assigning (· ∉ taken) before).length ns] at hnd
  obtain ⟨n, ns2, hn, ha, hns⟩ := forall₂_cons_right_iff.1 hrest
  obtain ⟨-, hnd2, hne⟩ := nodup_append.1 hnd
  rw [hns] at hnd2 hne
  obtain ⟨hint, hsn⟩ := dest?_of_introduces hn
  -- two statements that assign the register have introduced it under the same number
  have hsame : ∀ {t : Stmt} {m : Nat}, t.dest? = some reg → Introduces t m → m = n := by
    intro t m ht hm
    obtain ⟨hint', htm⟩ := dest?_of_introduces hm
    rw [hs] at hsn
    rw [ht, hsn] at htm
    exact (numbered_inj.1 (Option.some.inj htm)).2.symm
  intro t ht hreg
  rcases mem_append.1 ht with ht | ht
  · obtain ⟨m, hm, htm⟩ := exists_of_forall₂ hb (mem_assigning ht hreg hp)
    exact hne m hm n mem_cons_self (hsame hreg htm)
  · obtain ⟨m, hm, htm⟩ := exists_of_forall₂ ha (mem_assigning ht hreg hp)
    exact (nodup_cons.1 hnd2).1 (hsame hreg htm ▸ hm)

lemma Saves.numbers (h : Saves taken xs k moves ys k') : Numbers taken k moves k' := by
  induction h with
  | nil => exact .nil _
  | keep _ _ ih => exact ih
  | @save x xs k reg k1 moves ys k' _ hreg _ ih =>
    have hmove : Numbers taken k [.moveTemp reg x] k1 :=
      .fresh hreg rfl (.inr ⟨x, by rw [hreg.eq]⟩)
    exact hmove.trans ih

lemma Joins.numbers (h : Joins taken xs k pre moves zs k') : Numbers taken k moves k' := by
  cases h with
  | plain => exact .nil _
  | after _ h => exact h.numbers

lemma Numbers.snoc (h : Numbers taken k code k') (hs : ∀ r, s.dest? = some r → r ∈ taken) :
    Numbers taken k (code ++ [s]) k' :=
  h.trans (.known hs k')

/-! ### Order of assignments and reads -/

/-- Every register that code reads is named by the unit, is ready before the code, or is assigned
earlier in it. -/
def InOrder (taken : Taken) : List String → List Stmt → Prop
  | _, [] => True
  | ready, s :: code =>
    (∀ r ∈ s.reads, r ∈ taken ∨ r ∈ ready) ∧ InOrder taken (s.dest?.toList ++ ready) code

lemma InOrder.mono (h : InOrder taken ready code) (hr : ready ⊆ ready') :
    InOrder taken ready' code := by
  induction code generalizing ready ready' with
  | nil => trivial
  | cons s code ih =>
    exact ⟨fun r hmem => (h.1 r hmem).imp_right fun hr' => hr hr', ih h.2 (by grind)⟩

lemma inOrder_append : InOrder taken ready (code ++ code') ↔
      InOrder taken ready code ∧ InOrder taken (dests code ++ ready) code' := by
  induction code generalizing ready with
  | nil => simp [InOrder, dests]
  | cons s code ih =>
    have hmem : ∀ r, r ∈ dests code ++ (s.dest?.toList ++ ready) ↔
        r ∈ dests (s :: code) ++ ready := by
      intro r
      rw [← singleton_append, dests_append]
      cases hd : s.dest? <;> simp [dests, hd, or_left_comm]
    rw [cons_append, InOrder, InOrder, ih, and_assoc]
    refine and_congr_right fun _ => and_congr_right fun _ => ⟨fun h => ?_, fun h => ?_⟩
    · exact h.mono fun r hr => (hmem r).1 hr
    · exact h.mono fun r hr => (hmem r).2 hr

lemma InOrder.assigned {before after : List Stmt} (h : InOrder taken [] (before ++ s :: after))
    (hr : r ∈ s.reads) (hfree : r ∉ taken) :
    r ∈ dests before := by
  have hs := (inOrder_append.1 h).2.1 r hr
  simpa [hfree] using hs

/-- The registers of an expression are ready, and those that the unit names are among given ones. -/
def Provided (taken : Taken) (T ready : List String) (x : Expr) : Prop :=
  ∀ r ∈ x.reads, (r ∈ taken → r ∈ T) ∧ (r ∈ taken ∨ r ∈ ready)

lemma Provided.mono (h : Provided taken T ready x) (hr : ready ⊆ ready') :
    Provided taken T ready' x :=
  fun r hmem => ⟨(h r hmem).1, (h r hmem).2.imp_right fun hr' => hr hr'⟩

/-- Code, and values for the code after it, whose registers are assigned before they are read. Those
that the unit names are among given ones. -/
structure Tidy (taken : Taken) (T ready : List String) (code : List Stmt) (xs : List Expr) :
    Prop where
  inOrder : InOrder taken ready code
  named : ∀ s ∈ code, ∀ r ∈ s.registers, r ∈ taken → r ∈ T
  values : ∀ x ∈ xs, Provided taken T (dests code ++ ready) x

lemma Tidy.nil (h : ∀ x ∈ xs, Provided taken T ready x) : Tidy taken T ready [] xs :=
  ⟨trivial, by simp, h⟩

lemma Tidy.append (h : Tidy taken T ready code xs)
    (h' : Tidy taken T (dests code ++ ready) code' ys) :
    Tidy taken T ready (code ++ code') (xs ++ ys) := by
  refine ⟨inOrder_append.2 ⟨h.inOrder, h'.inOrder⟩, forall_mem_append.2 ⟨h.named, h'.named⟩,
    forall_mem_append.2 ⟨fun x hx => (h.values x hx).mono ?_, fun y hy => (h'.values y hy).mono ?_⟩⟩
  · rw [dests_append]
    grind
  · rw [dests_append]
    grind

lemma Tidy.mono (h : Tidy taken T ready code xs) (hr : ready ⊆ ready') :
    Tidy taken T ready' code xs :=
  ⟨h.inOrder.mono hr, h.named, fun x hx => (h.values x hx).mono (by grind)⟩

lemma Tidy.value (h : Tidy taken T ready code xs) (hy : ∀ r ∈ y.reads, ∃ x ∈ xs, r ∈ x.reads) :
    Tidy taken T ready code [y] := by
  refine ⟨h.inOrder, h.named, forall_mem_singleton.2 fun r hr => ?_⟩
  obtain ⟨x, hx, hr⟩ := hy r hr
  exact h.values x hx r hr

lemma Tidy.values_nil (h : Tidy taken T ready code xs) : Tidy taken T ready code [] :=
  ⟨h.inOrder, h.named, by simp⟩

lemma Tidy.stmt (h : Tidy taken T ready code xs) (hs : ∀ r ∈ s.reads, ∃ x ∈ xs, r ∈ x.reads)
    (hd : ∀ r, s.dest? = some r → r ∈ taken → r ∈ T) : Tidy taken T ready (code ++ [s]) [] := by
  have hreads : ∀ r ∈ s.reads, (r ∈ taken → r ∈ T) ∧ (r ∈ taken ∨ r ∈ dests code ++ ready) := by
    intro r hr
    obtain ⟨x, hx, hr⟩ := hs r hr
    exact h.values x hx r hr
  have hone : Tidy taken T (dests code ++ ready) [s] [] := by
    refine ⟨⟨fun r hr => (hreads r hr).2, trivial⟩, forall_mem_singleton.2 fun r hr => ?_, by simp⟩
    rcases mem_registers.1 hr with hr | hr
    · exact hd r hr
    · exact (hreads r hr).1
  exact (h.append hone).values_nil

lemma Saves.tidy (h : Saves taken xs k moves ys k') (hxs : ∀ x ∈ xs, Provided taken T ready x) :
    Tidy taken T ready moves ys := by
  induction h generalizing ready with
  | nil => exact .nil (by simp)
  | @keep x xs k moves ys k' _ _ ih =>
    obtain ⟨hx, hxs⟩ := forall_mem_cons.1 hxs
    have hys := ih hxs
    exact ⟨hys.inOrder, hys.named, forall_mem_cons.2 ⟨hx.mono (by simp), hys.values⟩⟩
  | @save x xs k reg k1 moves ys k' _ hreg _ ih =>
    obtain ⟨hx, hxs⟩ := forall_mem_cons.1 hxs
    have hmove : Tidy taken T ready [.moveTemp reg x] [.temp reg] := by
      refine ⟨⟨fun r hr => (hx r hr).2, trivial⟩, forall_mem_singleton.2 fun r hr ht => ?_,
        forall_mem_singleton.2 fun r hr => ?_⟩
      · rcases mem_registers.1 hr with hr | hr
        · cases hr
          exact absurd ht hreg.free
        · exact (hx r hr).1 ht
      · obtain rfl : r = reg := mem_singleton.1 hr
        exact ⟨fun ht => absurd ht hreg.free, .inr (by simp [dests, Stmt.dest?])⟩
    exact hmove.append (ih fun x hx => (hxs x hx).mono (by simp))

lemma Joins.tidy (h : Joins taken xs k pre moves zs k')
    (hxs : ∀ x ∈ xs, Provided taken T ready x) : Tidy taken T ready moves zs := by
  cases h with
  | plain => exact .nil hxs
  | after _ h => exact h.tidy hxs

end

/-! ### Lowered code -/

section

variable {taken : Taken} {T : List String}

lemma Ends.dest (h : Ends T t s) (hr : s.dest? = some r) : r ∈ T := by
  cases h with
  | moveTemp _ hT _ =>
    cases hr
    exact hT
  | moveCall _ hT => exact dest?_call hr ▸ hT
  | _ => cases hr

/-- The numbers of the registers that lowered code introduces. -/
lemma Assembles.numbers (h : Assembles taken T is k code xs k') (hT : ∀ r ∈ T, r ∈ taken) :
    Numbers taken k code k' := by
  induction h with
  | nil | const | name | temp _ => exact .nil _
  | label => exact .known (fun r hr => by cases hr) _
  | node _ _ _ ih | value _ _ _ ih | drop _ ih => exact ih
  | append _ _ ih ih' => exact ih.trans ih'
  | join _ _ hj ih ih' =>
    -- values are saved in front of code that was lowered before
    exact ih.trans (hj.numbers.append ih' (.inr ⟨le_rfl, le_rfl, le_rfl⟩))
  | @result dest k k1 _ _ f xs _ hd _ ih =>
    have hcall : Numbers taken k [.call 0 dest f xs] k1 :=
      .fresh hd (by simp [Stmt.dest?, hd.ne_empty]) (.inl ⟨f, xs, by rw [hd.eq]⟩)
    -- the result is numbered before the arguments and assigned after them
    exact ih.append hcall (.inr ⟨le_rfl, le_rfl, le_rfl⟩)
  | stmt s hs _ ih => exact ih.snoc fun r hr => hT r (hs.dest hr)

/-- The order of assignments and reads in lowered code. -/
lemma Assembles.tidy (h : Assembles taken T is k code xs k') (hT : ∀ r ∈ T, r ∈ taken) :
    Tidy taken T [] code xs := by
  induction h with
  | nil => exact .nil (by simp)
  | label =>
    exact ⟨⟨by simp [Stmt.reads], trivial⟩,
      by simp [Stmt.registers, Stmt.dest?, Stmt.reads], by simp⟩
  | const | name => exact .nil (by simp [Provided, Expr.reads])
  | temp h =>
    refine .nil (forall_mem_singleton.2 fun r hr => ?_)
    obtain rfl := mem_singleton.1 hr
    exact ⟨fun _ => h, .inl (hT _ h)⟩
  | node _ _ _ ih => exact ih
  | value y hy _ ih => exact ih.value (by cases y <;> simp_all [Expr.reads, Expr.operands])
  | drop _ ih => exact ih.values_nil
  | append _ _ ih ih' => exact ih.append (ih'.mono (by simp))
  | join _ _ hj ih ih' =>
    exact ih.values_nil.append ((hj.tidy ih.values).append (ih'.mono (by simp)))
  | @result dest _ _ _ _ f xs _ hd _ ih =>
    have hcall := ih.stmt (s := .call 0 dest f xs) (by simp [Stmt.reads]) fun r hr htr =>
      absurd (dest?_call hr ▸ htr) hd.free
    refine ⟨hcall.inOrder, hcall.named, forall_mem_singleton.2 fun r hr => ?_⟩
    obtain rfl : r = dest := mem_singleton.1 hr
    exact ⟨fun htr => absurd htr hd.free, .inr (by simp [dests, Stmt.dest?, hd.ne_empty])⟩
  | stmt s hs _ ih =>
    exact ih.stmt (by cases s <;> simp [Stmt.reads, Stmt.operands]) fun r hr _ => hs.dest hr

end

/-! ### Units -/

def CodeUnit.stmts (l : CodeUnit) : List Stmt :=
  l.functions.flatMap (·.body)

/-- A register is assigned by one statement of a unit, and all reads of it come after this statement
in the same function. -/
def CodeUnit.AssignsOnce (l : CodeUnit) (reg : String) : Prop :=
  ∃ gs g gs' before s after, l.functions = gs ++ g :: gs' ∧ g.body = before ++ s :: after ∧
    s.dest? = some reg ∧ reg ∉ s.reads ∧ (∀ t ∈ before, reg ∉ t.registers) ∧
    (∀ t ∈ after, t.dest? ≠ some reg) ∧ ∀ g' ∈ gs ++ gs', ∀ t ∈ g'.body, reg ∉ t.registers

section

variable {taken : Taken} {fs : List Structured.Function} {gs : List Function} {k : Nat}

lemma FlattensFunctions.numbers (h : FlattensFunctions taken fs k gs)
    (ht : ∀ f ∈ fs, ∀ r ∈ f.body.temps, r ∈ taken) :
    ∃ k', Numbers taken k (gs.flatMap (·.body)) k' := by
  induction h with
  | nil => exact ⟨_, .nil _⟩
  | cons hbody _ ih =>
    obtain ⟨htf, htfs⟩ := forall_mem_cons.1 ht
    obtain ⟨k', hrest⟩ := ih htfs
    have hfirst := (assembles_stmt hbody fun _ hr => hr).numbers htf
    exact ⟨k', hfirst.trans hrest⟩

lemma FlattensFunctions.tidy (h : FlattensFunctions taken fs k gs)
    (ht : ∀ f ∈ fs, ∀ r ∈ f.body.temps, r ∈ taken) :
    List.Forall₂ (fun f g => g.params = f.params ∧ Tidy taken f.body.temps [] g.body []) fs gs :=
  h.forall₂ fun f hf _ _ _ hbody => ⟨rfl, (assembles_stmt hbody fun _ hr => hr).tidy (ht f hf)⟩

lemma InOrder.mem_dests (h : InOrder taken [] code) (ht : t ∈ code) (hreg : reg ∈ t.registers)
    (hfree : reg ∉ taken) : reg ∈ dests code := by
  rcases mem_registers.1 hreg with hd | hr
  · exact Flat.mem_dests.2 ⟨t, ht, hd⟩
  · obtain ⟨before, after, rfl⟩ := append_of_mem ht
    rw [dests_append]
    exact mem_append_left _ (h.assigned hr hfree)

lemma assignsOnce_of_numbers {l : CodeUnit} (hn : Numbers taken k l.stmts k')
    (ho : ∀ g ∈ l.functions, InOrder taken [] g.body) {g : Function} {t : Stmt}
    (hg : g ∈ l.functions) (ht : t ∈ g.body) (hreg : reg ∈ t.registers) (hfree : reg ∉ taken) :
    l.AssignsOnce reg := by
  obtain ⟨s, hs, hd⟩ := mem_dests.1 ((ho g hg).mem_dests ht hreg hfree)
  obtain ⟨gs, gs', hfuncs⟩ := append_of_mem hg
  obtain ⟨before, after, hbody⟩ := append_of_mem hs
  have hstmts : l.stmts =
      (gs.flatMap (·.body) ++ before) ++ s :: (after ++ gs'.flatMap (·.body)) := by
    simp [CodeUnit.stmts, hfuncs, hbody]
  rw [hstmts] at hn
  have honce := hn.unique hd hfree
  have hb : reg ∉ dests before := by
    rw [mem_dests]
    rintro ⟨t, ht, hdt⟩
    exact honce t (by simp [ht]) hdt
  have hog := ho g hg
  rw [hbody] at hog
  refine ⟨gs, g, gs', before, s, after, hfuncs, hbody, hd, fun hr => hb (hog.assigned hr hfree),
    fun t ht hr => hb ?_, fun t ht => honce t (by simp [ht]), fun g' hg' t ht hr => ?_⟩
  · exact (inOrder_append.1 hog).1.mem_dests ht hr hfree
  · have hmem : g' ∈ l.functions := by
      rw [hfuncs]
      grind
    obtain ⟨t', ht', hdt'⟩ := mem_dests.1 ((ho g' hmem).mem_dests ht hr hfree)
    refine honce t' ?_ hdt'
    simp only [mem_append, mem_flatMap]
    grind

end

/-- The registers of a lowered unit. One that the unit does not name is assigned by one statement,
and read after it; the statements that introduce such registers do so for the result of a call or
for a value that is saved, each under a number of its own. Any other register of a function occurs
in the function that it comes from. -/
theorem made_registers {u : Structured.CodeUnit} {l : CodeUnit}
    (h : CodeUnit.ofStructured u = .ok l) :
    (∀ g ∈ l.functions, ∀ t ∈ g.body, ∀ reg ∈ t.registers, reg ∉ u.temps → l.AssignsOnce reg) ∧
    (∃ ns : List Nat, ns.Nodup ∧
      List.Forall₂ Introduces (assigning (· ∉ u.temps) l.stmts) ns) ∧
    List.Forall₂ (fun f g => g.params = f.params ∧
      ∀ t ∈ g.body, ∀ reg ∈ t.registers, reg ∈ u.temps → reg ∈ f.body.temps)
      u.functions l.functions := by
  have hmem : ∀ r, r ∈ Std.TreeSet.ofList u.temps ↔ r ∈ u.temps := fun r => by
    simp [Std.TreeSet.mem_ofList]
  have hflat := flattens_of_ofStructured h
  have hnamed : ∀ f ∈ u.functions, ∀ r ∈ f.body.temps, r ∈ Std.TreeSet.ofList u.temps :=
    fun f hf r hr => (hmem r).2 (mem_flatMap.2 ⟨f, hf, hr⟩)
  obtain ⟨k', hnumbers⟩ := hflat.numbers hnamed
  have htidy := hflat.tidy hnamed
  refine ⟨fun g hg t ht reg hreg hfree => ?_, ?_, htidy.imp fun f g hfg => ?_⟩
  · refine assignsOnce_of_numbers hnumbers (fun g hg => ?_) hg ht hreg (mt (hmem reg).1 hfree)
    obtain ⟨f, -, -, hfg⟩ := exists_of_forall₂ htidy hg
    exact hfg.inOrder
  · obtain ⟨-, ns, hnd, -, hi⟩ := hnumbers
    have heq : assigning (· ∉ u.temps) l.stmts =
        assigning (· ∉ Std.TreeSet.ofList u.temps) l.stmts := by
      simp only [assigning, hmem]
    exact ⟨ns, hnd, heq ▸ hi⟩
  · exact ⟨hfg.1, fun t ht reg hreg hin => hfg.2.named t ht reg hreg ((hmem reg).2 hin)⟩

/-- A unit that names registers as lowering does. The value of `x` is saved while a call runs. -/
def crowded : Structured.CodeUnit where
  name := "crowded"
  functions := [
    { name := "main"
      body := .seq [
        .move (.temp "lc.1") (.const 0),
        .ret [.binop .add (.temp "x") (.call (.name "other") [.temp "lc.1"])]] },
    { name := "other"
      body := .seq [.exp (.temp "lt.3"), .ret [.unop .neg (.call (.name "main") [])]] }]

theorem made_registers_crowded : ∃ l, CodeUnit.ofStructured crowded = .ok l ∧
    "lc.2" ∉ crowded.temps ∧ l.AssignsOnce "lc.2" ∧ l.AssignsOnce "lt.4" ∧
      l.AssignsOnce "lc.5" := by
  have hrun : (CodeUnit.ofStructured crowded).toOption.map
      (fun l => l.stmts.flatMap Stmt.registers) =
        some ["lc.1", "lt.4", "x", "lc.2", "lc.1", "lt.4", "lc.2", "lc.5", "lc.5"] := by
    decide +kernel
  obtain ⟨l, hl, hregs⟩ := Except.map_eq_some.1 hrun
  have hfree : ∀ reg ∈ ["lc.2", "lt.4", "lc.5"], reg ∉ crowded.temps := by decide
  have hmade : ∀ reg ∈ ["lc.2", "lt.4", "lc.5"], l.AssignsOnce reg := by
    intro reg hreg
    have hmem : reg ∈ l.stmts.flatMap Stmt.registers := by
      rw [hregs]
      revert reg
      decide
    obtain ⟨t, ht, hreg'⟩ := mem_flatMap.1 hmem
    obtain ⟨g, hg, ht⟩ := mem_flatMap.1 ht
    exact (made_registers hl).1 g hg t ht reg hreg' (hfree reg hreg)
  exact ⟨l, hl, hfree _ (by simp), hmade _ (by simp), hmade _ (by simp), hmade _ (by simp)⟩

end TreeMachine.Flat
