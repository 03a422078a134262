import TreeMachine.Proofs.Courses
import TreeMachine.Proofs.FlatValues
import TreeMachine.Proofs.Lowered

/-!
# The shape of lowered code

What can be read off the rules of lowering without running anything: the counter goes up, the
expressions name registers of the unit and fresh ones only, the code goes to labels and
calls functions that it may, and it has the labels of the code it comes from, in their order. Moves
are added to fresh registers only, so a register that was made before some code, or after it, keeps
its value while the code runs.
-/

open List

namespace TreeMachine.Flat

open Linear
open Structured

variable {k k' : Nat} {hint reg : String} {s : Stmt} {code moves : List Stmt} {ls : List String}
  {xs : List Expr}

/-- A register that occurs in code up to a number: one of the unit's, or a fresh one. -/
def Known (taken : Taken) (k : Nat) (r : String) : Prop :=
  r ∈ taken ∨ ∃ hint j, r = numbered hint j ∧ j ≤ k

lemma Known.mono (h : k ≤ k') (r : String) (hr : Known taken k r) : Known taken k' r := by
  rcases hr with hr | ⟨hint, j, rfl, hj⟩
  · exact .inl hr
  · exact .inr ⟨hint, j, rfl, le_trans hj h⟩

lemma Fresh.known (h : Fresh taken hint k reg k') : Known taken k' reg :=
  .inr ⟨hint, k', h.eq, le_refl k'⟩

lemma Fresh.not_known (h : Fresh taken hint k reg k') : ¬Known taken k reg := by
  rintro (hr | ⟨hint', j, hr, hj⟩)
  · exact h.free hr
  · have := (numbered_inj.1 (h.eq.symm.trans hr)).2
    have := h.lt
    omega

lemma Fresh.ne_empty (h : Fresh taken hint k reg k') : reg ≠ "" := by
  rw [h.eq]
  exact numbered_ne_empty hint k'

def Stmt.Fits (ok lab known : String → Prop) : Stmt → Prop
  | .moveTemp _ x => x.Fits known
  | .moveMem x y => x.Fits known ∧ y.Fits known
  | .exp x => x.Fits known
  | .jump (.name l) => lab l
  | .jump _ => False
  | .cjump x yes no => x.Fits known ∧ lab yes ∧ lab no
  | .label _ => True
  | .ret xs => ∀ x ∈ xs, x.Fits known
  | .call _ _ (.name f) xs => ok f ∧ ∀ x ∈ xs, x.Fits known
  | .call _ _ _ _ => False

def marksOf (code : List Stmt) : List String :=
  marks (itemsOfAll (code.map Stmt.lift))

lemma marksOf_append (code code' : List Stmt) :
    marksOf (code ++ code') = marksOf code ++ marksOf code' := by
  simp [marksOf, itemsOfAll_append]

lemma marks_lift (x : Expr) : marks (itemsOfExpr x.lift) = [] := by
  induction x with
  | const v => rfl
  | temp r => rfl
  | name l => rfl
  | mem addr ih => simp [Expr.lift, itemsOfExpr, marks, ih]
  | unop op x ih => simp [Expr.lift, itemsOfExpr, marks, ih]
  | binop op l r ihl ihr => simp [Expr.lift, itemsOfExpr, marks, ihl, ihr]

lemma marks_liftAll (xs : List Expr) : marks (itemsOfExprs (xs.map Expr.lift)) = [] := by
  induction xs with
  | nil => rfl
  | cons x xs ih => simp [itemsOfExprs, marks_lift, ih]

lemma marksOf_single (s : Stmt) : marksOf [s] = s.lift.label?.toList := by
  cases s with
  | call n dest f xs =>
    by_cases hd : dest.isEmpty = true <;>
      simp [marksOf, Stmt.lift, hd, itemsOfAll, itemsOf, itemsOfExpr, marks, marks_lift,
        marks_liftAll]
  | _ => simp [marksOf, Stmt.lift, itemsOfAll, itemsOf, itemsOfExpr, marks, marks_lift,
    marks_liftAll]

/-- The registers that flat code moves values to. -/
def movedBy (code : List Stmt) : List String :=
  Stmt.movedAll (code.map Stmt.lift)

lemma movedBy_append (code code' : List Stmt) :
    movedBy (code ++ code') = movedBy code ++ movedBy code' := by
  simp [movedBy, Structured.Stmt.movedAll_append]

lemma moved_lift (x : Expr) : x.lift.moved = [] := by
  induction x with
  | const v => rfl
  | temp r => rfl
  | name l => rfl
  | mem addr ih => simpa [Expr.lift, Structured.Expr.moved] using ih
  | unop op x ih => simpa [Expr.lift, Structured.Expr.moved] using ih
  | binop op l r ihl ihr => simp [Expr.lift, Structured.Expr.moved, ihl, ihr]

lemma moved_liftAll (xs : List Expr) : Expr.movedAll (xs.map Expr.lift) = [] := by
  induction xs with
  | nil => rfl
  | cons x xs ih => simp [Expr.movedAll, moved_lift, ih]

/-- The registers that lowered code moves values to: those of the code it comes from, and fresh
ones. -/
def Moves (taken : Taken) (old : List String) (k : Nat) (code : List Stmt) (k' : Nat) : Prop :=
  k ≤ k' ∧ ∀ r ∈ movedBy code, r ∈ old ∧ r ∈ taken ∨
    ∃ hint n, r = numbered hint n ∧ r ∉ taken ∧ k < n ∧ n ≤ k'

section

variable {taken : Taken} {ok lab : String → Prop} {old old' : List String}

lemma Moves.nil (old : List String) (k : Nat) : Moves taken old k [] k :=
  ⟨le_refl k, by simp [movedBy, Stmt.movedAll]⟩

lemma Moves.append (h : Moves taken old k code k1) (h' : Moves taken old' k1 code' k') :
    Moves taken (old ++ old') k (code ++ code') k' := by
  have hle := h.1
  have hle' := h'.1
  refine ⟨by omega, fun r hr => ?_⟩
  rw [movedBy_append, mem_append] at hr
  rcases hr with hr | hr
  · rcases h.2 r hr with ⟨ho, ht⟩ | ⟨hint, n, he, hn, hlo, hhi⟩
    · exact .inl ⟨mem_append_left _ ho, ht⟩
    · exact .inr ⟨hint, n, he, hn, hlo, by omega⟩
  · rcases h'.2 r hr with ⟨ho, ht⟩ | ⟨hint, n, he, hn, hlo, hhi⟩
    · exact .inl ⟨mem_append_right _ ho, ht⟩
    · exact .inr ⟨hint, n, he, hn, by omega, hhi⟩

lemma Moves.snoc (h : Moves taken old k code k') (hs : s.lift.moved = []) :
    Moves taken old k (code ++ [s]) k' := by
  refine ⟨h.1, fun r hr => ?_⟩
  rw [movedBy_append] at hr
  simp only [movedBy, map_cons, map_nil, Stmt.movedAll, hs, List.append_nil] at hr
  exact h.2 r hr

lemma Moves.snoc_taken (h : Moves taken old k code k') (hs : s.lift.moved ⊆ [reg])
    (ht : reg ∈ taken) : Moves taken (reg :: old) k (code ++ [s]) k' := by
  refine ⟨h.1, fun r hr => ?_⟩
  rw [movedBy_append, mem_append] at hr
  rcases hr with hr | hr
  · exact (h.2 r hr).imp (fun ⟨ho, ht⟩ => ⟨mem_cons_of_mem _ ho, ht⟩) id
  · simp only [movedBy, map_cons, map_nil, Stmt.movedAll, List.append_nil] at hr
    obtain rfl := mem_singleton.1 (hs hr)
    exact .inl ⟨mem_cons_self, ht⟩

lemma moved_call : (Stmt.call returns dest (.name f) xs).lift.moved ⊆ [dest] := by
  by_cases hd : dest.isEmpty = true <;>
    simp [Stmt.lift, hd, Structured.Stmt.moved, Structured.Expr.moved, moved_liftAll]

lemma moved_call_empty : (Stmt.call returns "" (.name f) xs).lift.moved = [] := by
  simp [Stmt.lift, Structured.Stmt.moved, moved_liftAll]

lemma Moves.comm (h : Moves taken old k (code ++ code') k') :
    Moves taken old k (code' ++ code) k' := by
  refine ⟨h.1, fun r hr => h.2 r ?_⟩
  rw [movedBy_append, mem_append] at hr ⊢
  exact hr.symm

/-- What is known of lowered code: how far the counter goes and what values are moved to, what the
labels are, and that the statements are ones that lowering gives. -/
structure Shape (taken : Taken) (ok lab : String → Prop) (old : List String) (k : Nat)
    (code : List Stmt) (labels : List String) (k' : Nat) : Prop where
  moves : Moves taken old k code k'
  labels : marksOf code = labels
  fits : ∀ s ∈ code, s.Fits ok lab (Known taken k')

lemma Stmt.Fits.imp (h : ∀ r, known r → known' r) (hs : s.Fits ok lab known) :
    s.Fits ok lab known' := by
  cases s with
  | moveTemp r x => exact Expr.Fits.imp h hs
  | moveMem x y => exact ⟨hs.1.imp h, hs.2.imp h⟩
  | exp x => exact Expr.Fits.imp h hs
  | jump x => cases x <;> exact hs
  | cjump x yes no => exact ⟨hs.1.imp h, hs.2⟩
  | label l => trivial
  | ret xs => exact fun x hx => (hs x hx).imp h
  | call n dest f xs =>
    cases f with
    | name f => exact ⟨hs.1, fun x hx => (hs.2 x hx).imp h⟩
    | _ => exact hs

lemma Shape.le (h : Shape taken ok lab old k code ls k') : k ≤ k' := h.moves.1

lemma Shape.nil (k : Nat) : Shape taken ok lab old k [] [] k :=
  ⟨.nil old k, rfl, by simp⟩

lemma Shape.append (h : Shape taken ok lab old k code ls k1)
    (h' : Shape taken ok lab old' k1 code' ls' k') :
    Shape taken ok lab (old ++ old') k (code ++ code') (ls ++ ls') k' := by
  refine ⟨h.moves.append h'.moves, by rw [marksOf_append, h.labels, h'.labels], fun s hs => ?_⟩
  rcases mem_append.1 hs with hs | hs
  · exact (h.fits s hs).imp (Known.mono h'.le)
  · exact h'.fits s hs

lemma Shape.snoc (h : Shape taken ok lab old k code ls k') (hs : s.Fits ok lab (Known taken k'))
    (hl : s.lift.label? = none) (hm : Moves taken old' j (code ++ [s]) k') :
    Shape taken ok lab old' j (code ++ [s]) ls k' :=
  ⟨hm, by rw [marksOf_append, marksOf_single, hl, h.labels]; simp,
    forall_mem_append.2 ⟨h.fits, forall_mem_singleton.2 hs⟩⟩

lemma Shape.call (h : Shape taken ok lab old k code ls k') (hf : ok f)
    (hxs : ∀ x ∈ xs, x.Fits (Known taken k'))
    (hm : Moves taken old' j (code ++ [.call n dest (.name f) xs]) k') :
    Shape taken ok lab old' j (code ++ [.call n dest (.name f) xs]) ls k' := by
  refine h.snoc ⟨hf, hxs⟩ ?_ hm
  simp only [Stmt.lift]
  split <;> rfl

lemma Saves.le (h : Saves taken xs k moves ys k') : k ≤ k' := by
  induction h with
  | nil => exact le_rfl
  | keep _ _ ih => exact ih
  | save _ hreg _ ih => exact le_trans (le_of_lt hreg.lt) ih

lemma Joins.le (h : Joins taken xs k pre moves zs k') : k ≤ k' := by
  cases h with
  | plain => exact le_refl k
  | after _ h => exact h.le

lemma LowersStmts.length_eq (h : LowersStmts taken ok lab ss k codes k') :
    codes.length = ss.length := by
  induction ss generalizing k codes with
  | nil =>
    cases h
    rfl
  | cons s ss ih =>
    cases h with
    | cons _ h => simp [ih h]

lemma Saves.shape (h : Saves taken xs k moves ys k') (ok lab : String → Prop) (hj : j ≤ k)
    (hxs : ∀ x ∈ xs, x.Fits (Known taken j)) :
    Shape taken ok lab [] k moves [] k' ∧ ∀ y ∈ ys, y.Fits (Known taken k') := by
  induction h with
  | nil => exact ⟨.nil _, by simp⟩
  | @keep x xs k moves ys k' _ _ ih =>
    obtain ⟨hx, hxs⟩ := forall_mem_cons.1 hxs
    obtain ⟨hs, hys⟩ := ih hj hxs
    exact ⟨hs, forall_mem_cons.2 ⟨hx.imp (Known.mono (le_trans hj hs.le)), hys⟩⟩
  | @save x xs k reg k1 moves ys k' _ hreg _ ih =>
    obtain ⟨hx, hxs⟩ := forall_mem_cons.1 hxs
    have hlt := hreg.lt
    obtain ⟨hs, hys⟩ := ih (by omega) hxs
    have hmove : Shape taken ok lab [] k [.moveTemp reg x] [] k1 := by
      refine ⟨⟨by omega, fun r hr => .inr ⟨"lt", k1, ?_⟩⟩, marksOf_single _,
        by simpa [Stmt.Fits] using hx.imp (Known.mono (by omega))⟩
      obtain rfl : r = reg := by
        simpa [movedBy, Stmt.lift, Stmt.movedAll, Structured.Stmt.moved, moved_lift] using hr
      exact ⟨hreg.eq, hreg.free, hlt, le_rfl⟩
    exact ⟨by simpa using hmove.append hs, forall_mem_cons.2 ⟨Known.mono hs.le _ hreg.known, hys⟩⟩

lemma Joins.shape (h : Joins taken xs k pre moves zs k') (ok lab : String → Prop) (hj : j ≤ k)
    (hxs : ∀ x ∈ xs, x.Fits (Known taken j)) :
    Shape taken ok lab [] k moves [] k' ∧ ∀ z ∈ zs, z.Fits (Known taken k') := by
  cases h with
  | plain => exact ⟨.nil _, fun x hx => (hxs x hx).imp (Known.mono hj)⟩
  | after _ h => exact h.shape ok lab hj hxs

mutual

lemma shape_expr {e k pre x k'} : LowersExpr taken ok lab e k pre x k' →
    Shape taken ok lab e.moved k pre (marks (itemsOfExpr e)) k' ∧ x.Fits (Known taken k')
  | .const => ⟨.nil _, trivial⟩
  | .temp hr => ⟨.nil _, .inl hr⟩
  | .mem h => by
    obtain ⟨hs, hx⟩ := shape_expr h
    exact ⟨by simpa [itemsOfExpr, marks, Structured.Expr.moved] using hs, hx⟩
  | .binop hop h => by
    obtain ⟨hs, hxs⟩ := shape_all h (by simp)
    refine ⟨?_, hop, hxs _ (by simp), hxs _ (by simp)⟩
    simpa [itemsOfExpr, itemsOfExprs, marks, Structured.Expr.moved, Expr.movedAll] using hs
  | .unop h => by
    obtain ⟨hs, hx⟩ := shape_expr h
    exact ⟨by simpa [itemsOfExpr, marks, Structured.Expr.moved] using hs, hx⟩
  | @LowersExpr.call _ _ _ f _ _ dest k1 _ xs _ hf hd h => by
    obtain ⟨hs, hxs⟩ := shape_all h (by simp)
    refine ⟨?_, Known.mono hs.le _ hd.known⟩
    have hdest : Moves taken [] k [.call 0 dest (.name f) xs] k1 := by
      refine ⟨le_of_lt hd.lt, fun r hr => .inr ⟨"lc", k1, ?_⟩⟩
      simp only [movedBy, map_cons, map_nil, Stmt.movedAll, List.append_nil] at hr
      obtain rfl := mem_singleton.1 (moved_call hr)
      exact ⟨hd.eq, hd.free, hd.lt, le_rfl⟩
    have hcall := hs.call hf hxs (hdest.append hs.moves).comm
    simpa [itemsOfExpr, marks, Structured.Expr.moved] using hcall
  | .eseq hs he => by
    obtain ⟨he, hx⟩ := shape_expr he
    refine ⟨?_, hx⟩
    simpa [itemsOfExpr, marks, Structured.Expr.moved] using (shape_stmt hs).append he

lemma shape_all {xs es k code ys k'} : LowersAll taken ok lab xs es k code ys k' →
    (∀ x ∈ xs, x.Fits (Known taken k)) →
    Shape taken ok lab (Expr.movedAll es) k code (marks (itemsOfExprs es)) k' ∧
      ∀ y ∈ ys, y.Fits (Known taken k')
  | .nil, hxs => ⟨.nil _, hxs⟩
  | .cons he hj h, hxs => by
    obtain ⟨hs, hx⟩ := shape_expr he
    obtain ⟨hm, hzs⟩ := hj.shape ok lab hs.le hxs
    obtain ⟨hs', hys⟩ := shape_all h (forall_mem_append.2
      ⟨hzs, by simpa using hx.imp (Known.mono hm.le)⟩)
    refine ⟨⟨?_, ?_, fun s hmem => ?_⟩, hys⟩
    · -- the saves come first in the code but have the later numbers
      simpa [Expr.movedAll] using (hs.moves.append hm.moves).comm.append hs'.moves
    · simp [marksOf_append, hm.labels, hs.labels, hs'.labels, itemsOfExprs]
    · rcases mem_append.1 hmem with hmem | hmem
      · rcases mem_append.1 hmem with hmem | hmem
        · exact (hm.fits s hmem).imp (Known.mono hs'.le)
        · exact (hs.fits s hmem).imp (Known.mono (le_trans hm.le hs'.le))
      · exact hs'.fits s hmem

/-- The shape of a lowered statement. -/
lemma shape_stmt {s k code k'} :
    LowersStmt taken ok lab s k code k' → Shape taken ok lab s.moved k code (marks (itemsOf s)) k'
  | .skip => .nil _
  | .label => ⟨Moves.snoc (.nil _ _) rfl, rfl, by simp [Stmt.Fits]⟩
  | .seq h => by simpa [itemsOf, marks, Structured.Stmt.moved] using shape_stmts h
  | .moveTemp hr h => by
    obtain ⟨hs, hx⟩ := shape_expr h
    simp only [itemsOf, itemsOfExpr, marks_append, marks, nil_append, List.append_nil,
      Structured.Stmt.moved]
    exact hs.snoc hx rfl
      (hs.moves.snoc_taken (by simp [Stmt.lift, Structured.Stmt.moved, moved_lift]) hr)
  | .moveCall hr hf h => by
    obtain ⟨hs, hxs⟩ := shape_all h (by simp)
    simp only [itemsOf, itemsOfExpr, marks_append, marks, nil_append, List.append_nil,
      Structured.Stmt.moved, Structured.Expr.moved]
    exact hs.call hf hxs (hs.moves.snoc_taken moved_call hr)
  | .moveMem (x := x) (y := y) h => by
    obtain ⟨hs, hxs⟩ := shape_all h (by simp)
    have hsnoc := hs.snoc (s := .moveMem x y) ⟨hxs x (by simp), hxs y (by simp)⟩ rfl (hs.moves.snoc
      (by simp [Stmt.lift, Structured.Stmt.moved, Structured.Expr.moved, moved_lift]))
    simpa [itemsOf, itemsOfExpr, itemsOfExprs, marks, Structured.Stmt.moved, Structured.Expr.moved,
      Expr.movedAll] using hsnoc
  | .expCall hf h => by
    obtain ⟨hs, hxs⟩ := shape_all h (by simp)
    simp only [itemsOf, itemsOfExpr, marks_append, marks, nil_append, List.append_nil,
      Structured.Stmt.moved, Structured.Expr.moved]
    exact hs.call hf hxs (hs.moves.snoc moved_call_empty)
  | .drop _ _ h => by simpa [itemsOf, marks, Structured.Stmt.moved] using (shape_expr h).1
  | .exp _ _ h => by
    obtain ⟨hs, hx⟩ := shape_expr h
    simp only [itemsOf, marks_append, marks, List.append_nil, Structured.Stmt.moved]
    exact hs.snoc hx rfl (hs.moves.snoc (by simp [Stmt.lift, Structured.Stmt.moved, moved_lift]))
  | .jump hl => ⟨Moves.snoc (.nil _ _) rfl, rfl, by simpa [Stmt.Fits] using hl⟩
  | .cjump hy hn h => by
    obtain ⟨hs, hx⟩ := shape_expr h
    simp only [itemsOf, marks_append, marks, List.append_nil, Structured.Stmt.moved]
    exact hs.snoc ⟨hx, hy, hn⟩ rfl
      (hs.moves.snoc (by simp [Stmt.lift, Structured.Stmt.moved, moved_lift]))
  | .ret h => by
    obtain ⟨hs, hxs⟩ := shape_all h (by simp)
    simp only [itemsOf, marks_append, marks, List.append_nil, Structured.Stmt.moved]
    exact hs.snoc hxs rfl (hs.moves.snoc (by simp [Stmt.lift, Structured.Stmt.moved,
      moved_liftAll]))
  | .call hf h => by
    obtain ⟨hs, hxs⟩ := shape_all h (by simp)
    simp only [itemsOf, itemsOfExpr, marks_append, marks, nil_append, List.append_nil,
      Structured.Stmt.moved]
    exact hs.call hf hxs (hs.moves.snoc moved_call_empty)

lemma shape_stmts {ss k codes k'} : LowersStmts taken ok lab ss k codes k' →
    Shape taken ok lab (Stmt.movedAll ss) k codes.flatten (marks (itemsOfAll ss)) k'
  | .nil => .nil _
  | .cons h hs => by
    simpa [itemsOfAll, Stmt.movedAll] using (shape_stmt h).append (shape_stmts hs)

end

/-- Lowered statements are confined where they may go to their labels. -/
lemma Stmt.Fits.confined (hs : s.Fits ok lab known) (hlab : ∀ l, lab l → l ∈ scope) :
    s.lift.Confined ok [] scope := by
  cases s with
  | moveTemp r x => exact Expr.Fits.confined ok [] hs
  | moveMem x y => exact ⟨hs.1.confined ok [], hs.2.confined ok []⟩
  | exp x => exact Expr.Fits.confined ok [] hs
  | jump x =>
    cases x with
    | name l => exact .inl (hlab l hs)
    | _ => exact hs.elim
  | cjump x yes no => exact ⟨hs.1.confined ok [], .inl (hlab yes hs.2.1), .inl (hlab no hs.2.2)⟩
  | label l => trivial
  | ret xs => exact confinedAll_lift ok [] hs
  | call n dest f xs =>
    cases f with
    | name f =>
      simp only [Stmt.lift]
      split
      · exact ⟨hs.1, confinedAll_lift ok [] hs.2⟩
      · exact ⟨hs.1, confinedAll_lift ok [] hs.2⟩
    | _ => exact hs.elim

end

end TreeMachine.Flat
