import TreeMachine.Proofs.Generated
import TreeMachine.Proofs.LoweredShape

/-!
# The registers that code moves values to

The code of an expression moves values only to registers that were made for it, with numbers
between the two states of the counter. So a register that was made before some code, or after it,
keeps its value while the code runs.
-/

open List

namespace TreeMachine.Structured.Compile

/-- Registers with numbers above `k`, up to `k'`. -/
def Numbered (k k' : Nat) (rs : List String) : Prop :=
  k ≤ k' ∧ ∀ r ∈ rs, ∃ hint n, r = numbered hint n ∧ k < n ∧ n ≤ k'

lemma Numbered.nil (k : Nat) : Numbered k k [] := ⟨le_refl k, by simp⟩

lemma Numbered.append (h : Numbered k k1 rs) (h' : Numbered k1 k2 rs') :
    Numbered k k2 (rs ++ rs') := by
  have hle := h.1
  have hle' := h'.1
  refine ⟨by omega, forall_mem_append.2 ⟨fun r hr => ?_, fun r hr => ?_⟩⟩
  · obtain ⟨hint, n, rfl, hlo, hhi⟩ := h.2 r hr
    exact ⟨hint, n, rfl, hlo, by omega⟩
  · obtain ⟨hint, n, rfl, hlo, hhi⟩ := h'.2 r hr
    exact ⟨hint, n, rfl, by omega, hhi⟩

lemma Numbered.one (hint : String) (k : Nat) : Numbered k (k + 1) [numbered hint (k + 1)] :=
  ⟨Nat.le_succ k, fun r hr => ⟨hint, k + 1, mem_singleton.1 hr, by omega, le_rfl⟩⟩

lemma Numbered.perm (h : Numbered k k' rs) (hp : ∀ r ∈ rs', r ∈ rs) : Numbered k k' rs' :=
  ⟨h.1, fun r hr => h.2 r (hp r hr)⟩

lemma moved_literal :
    (literalCode (.temp base) elements).moved = base :: Expr.movedAll elements := by
  have hmoves : ∀ i, Stmt.movedAll (elementMoves (.temp base) i elements) =
      Expr.movedAll elements := by
    induction elements with
    | nil => exact fun _ => rfl
    | cons x xs ih =>
      intro i
      simp [elementMoves, Stmt.movedAll, Stmt.moved, Expr.moved, Expr.movedAll, plus, ih]
  simp [literalCode, Stmt.moved, Stmt.movedAll, Expr.moved, Expr.movedAll, malloc, hmoves]

lemma moved_consts (vs : List Int32) : Expr.movedAll (vs.map .const) = [] := by
  induction vs with
  | nil => rfl
  | cons v vs ih => simpa [Expr.movedAll, Expr.moved] using ih

section

variable {scopes : List Tree.Scope} {trap : String}

mutual

/-- The code of an expression moves values to its own registers. -/
lemma moved_value {e c x c'} : ValueOf scopes trap e c x c' → Numbered c.temps c'.temps x.moved
  | .int => .nil c.temps
  | .bool => .nil c.temps
  | .string (s := s) => by
    have hcodes : Expr.movedAll (s.toList.map fun ch => .const (Utf8.codeOfChar ch)) = [] := by
      have := moved_consts (s.toList.map Utf8.codeOfChar)
      rwa [map_map] at this
    have hmoved : ∀ base : String, Expr.moved (.eseq (literalCode (.temp base)
        (s.toList.map fun ch => .const (Utf8.codeOfChar ch))) (plus (.temp base) word)) =
        [base] := by
      intro base
      rw [Expr.moved, moved_literal, hcodes]
      rfl
    rw [hmoved]
    exact .one "aB" c.temps
  | .ident _ => .nil c.temps
  | .index ha hi => by
    refine (((moved_value ha).append (moved_value hi)).append
      ((Numbered.one "aA" _).append (.one "aI" _))).perm fun r hr => ?_
    simp only [Expr.moved, checkCode, Stmt.moved, Stmt.movedAll, elementAddr, plus, times, word,
      List.append_nil, mem_append, mem_cons, not_mem_nil, or_false] at hr ⊢
    tauto
  | .binary _ hl hr => by
    rw [Expr.moved]
    exact (moved_value hl).append (moved_value hr)
  | .unary _ hx => by
    rw [Expr.moved]
    exact moved_value hx
  | .flag _ hb => by
    refine ((Numbered.one "b" c.temps).append (moved_branch hb)).perm fun r hr => ?_
    simp only [Expr.moved, flagCode, Stmt.moved, Stmt.movedAll, List.append_nil,
      mem_append, mem_cons, not_mem_nil, or_false] at hr ⊢
    tauto
  | .call hs => by
    rw [Expr.moved]
    exact moved_values hs

lemma moved_branch {e yes no c s c'} :
    BranchOf scopes trap e yes no c s c' → Numbered c.temps c'.temps s.moved
  | .bool => .nil c.temps
  | .and hl hr => by
    simpa [Stmt.moved, Stmt.movedAll] using (moved_branch hl).append (moved_branch hr)
  | .or hl hr => by
    simpa [Stmt.moved, Stmt.movedAll] using (moved_branch hl).append (moved_branch hr)
  | .not h => moved_branch h
  | .test _ hx => by
    rw [Stmt.moved]
    exact moved_value hx

lemma moved_values {es c xs c'} :
    ValuesOf scopes trap es c xs c' → Numbered c.temps c'.temps (Expr.movedAll xs)
  | .nil => .nil c.temps
  | .cons hx hs => by
    rw [Expr.movedAll]
    exact (moved_value hx).append (moved_values hs)

end

end

end TreeMachine.Structured.Compile
