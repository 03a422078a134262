import TreeMachine.Proofs.Passes

/-!
# Evaluating statement lists step by step

The evaluation of a statement list that has come to some place in it, with a part of its budget
left. It goes on statement by statement, and a jump moves it to the place behind a label,
forward or, for one unit of the budget, backward.
-/

namespace TreeMachine.Structured

open Machine

/-- A stop that a list with these labels does not take up. -/
def Stop.Escapes (labels : List String) : Stop → Prop
  | .goto l => l ∉ labels
  | _ => True

lemma Stop.escapes_nil (e : Stop) : e.Escapes [] := by
  cases e with
  | goto l => exact List.not_mem_nil
  | _ => trivial

/-- What the list `all` does with the label that is looked for at its end. -/
def Stmt.again (cx : Context) (all : List Stmt) (n : Nat) : Option String → Eval Unit
  | none => return ()
  | some l =>
    if l ∈ labelsIn all then
      match n with
      | 0 => throw .exhausted
      | n + 1 => Eval.loop (labelsIn all) (fun start => Stmt.evalSeq cx all start) n (some l)
    else throw (.goto l)

/-- Evaluates what is left of the list `all`, with a budget. -/
def Stmt.resume (cx : Context) (all : List Stmt) (n : Nat) (left : List Stmt) : Eval Unit := do
  Stmt.again cx all n (← Stmt.evalSeq cx left none)

section

variable {cx : Context} {all ss ts : List Stmt} {s : Stmt} {n : Nat} {ρ ρ' : Env} {e : Stop}
  {l : String}

lemma loop_eq (start : Option String) :
    Eval.loop (labelsIn all) (fun start => Stmt.evalSeq cx all start) n start =
      Stmt.evalSeq cx all start >>= Stmt.again cx all n := by
  rw [Eval.loop]
  rfl

lemma eval_seq : (Stmt.seq all).eval cx ρ = Stmt.resume cx all cx.budget all ρ := by
  rw [Stmt.eval, loop_eq]
  rfl

@[simp] lemma resume_nil : Stmt.resume cx all n [] ρ = .ok () ρ := rfl

/-- A statement that ends well. -/
lemma resume_ok (h : s.eval cx ρ = .ok () ρ') :
    Stmt.resume cx all n (s :: ss) ρ = Stmt.resume cx all n ss ρ' := by
  have hseek : Eval.seek (s.eval cx) ρ = .ok none ρ' := by rw [Eval.seek, h]
  show (Stmt.evalSeq cx (s :: ss) none >>= Stmt.again cx all n) ρ = _
  show EStateM.bind _ _ ρ = EStateM.bind _ _ ρ'
  rw [Stmt.evalSeq, EStateM.bind, bind_ok hseek, EStateM.bind]

@[simp] lemma resume_label : Stmt.resume cx all n (.label l :: ss) ρ = Stmt.resume cx all n ss ρ :=
  resume_ok rfl

lemma again_of_some (h : s.eval cx ρ = .error (.goto l) ρ') (hl : l ∉ labelsIn ss) :
    Stmt.resume cx all n (s :: ss) ρ = Stmt.again cx all n (some l) ρ' := by
  have hseek : Eval.seek (s.eval cx) ρ = .ok (some l) ρ' := by rw [Eval.seek, h]
  show EStateM.bind (Stmt.evalSeq cx (s :: ss) none) _ ρ = _
  rw [Stmt.evalSeq, EStateM.bind, bind_ok hseek, evalSeq_some_of_not_mem hl]

/-- A stop that leaves the list. -/
lemma resume_stop (h : s.eval cx ρ = .error e ρ') (hleft : labelsIn ss ⊆ labelsIn all)
    (he : e.Escapes (labelsIn all)) : Stmt.resume cx all n (s :: ss) ρ = .error e ρ' := by
  by_cases hgoto : ∃ l, e = .goto l
  · obtain ⟨l, rfl⟩ := hgoto
    have hl : l ∉ labelsIn all := he
    rw [again_of_some h fun hmem => hl (hleft hmem)]
    unfold Stmt.again
    simp only [hl, if_false]
    rfl
  · have hseek : Eval.seek (s.eval cx) ρ = .error e ρ' := by
      rw [Eval.seek, h]
      cases e with
      | goto l => exact absurd ⟨l, rfl⟩ hgoto
      | _ => rfl
    show EStateM.bind (Stmt.evalSeq cx (s :: ss) none) _ ρ = _
    rw [Stmt.evalSeq, EStateM.bind, bind_error hseek]

lemma evalSeq_of_label (hl : l ∉ labelsIn ss) :
    Stmt.evalSeq cx (ss ++ .label l :: ts) (some l) ρ = Stmt.evalSeq cx ts none ρ := by
  induction ss with
  | nil => rw [List.nil_append, Stmt.evalSeq, label?_label, if_pos rfl]
  | cons s ss ih =>
    rw [labelsIn_cons, List.mem_append, not_or] at hl
    have hs : s.label? ≠ some l := fun he => hl.1 (by simp [he])
    rw [List.cons_append, Stmt.evalSeq, if_neg hs]
    exact ih hl.2

/-- A jump forward. -/
lemma resume_forward (h : s.eval cx ρ = .error (.goto l) ρ') (hl : l ∉ labelsIn ss) :
    Stmt.resume cx all n (s :: (ss ++ .label l :: ts)) ρ = Stmt.resume cx all n ts ρ' := by
  have hseek : Eval.seek (s.eval cx) ρ = .ok (some l) ρ' := by rw [Eval.seek, h]
  show EStateM.bind _ _ ρ = EStateM.bind _ _ ρ'
  rw [Stmt.evalSeq, EStateM.bind, bind_ok hseek, evalSeq_of_label hl, EStateM.bind]

lemma resume_goto (h : s.eval cx ρ = .error (.goto l) ρ') (hrest : rest = ss ++ .label l :: ts)
    (hl : l ∉ labelsIn ss) : Stmt.resume cx all n (s :: rest) ρ = Stmt.resume cx all n ts ρ' := by
  rw [hrest]
  exact resume_forward h hl

lemma resume_next (h : s.eval cx ρ = .error (.goto l) ρ') :
    Stmt.resume cx all n (s :: .label l :: ts) ρ = Stmt.resume cx all n ts ρ' := by
  have hnone : l ∉ labelsIn ([] : List Stmt) := List.not_mem_nil
  exact resume_forward h hnone

/-- A jump backward. -/
lemma resume_back (h : s.eval cx ρ = .error (.goto l) ρ') (hleft : l ∉ labelsIn ss)
    (hall : all = before ++ .label l :: after) (hl : l ∉ labelsIn before) :
    Stmt.resume cx all (n + 1) (s :: ss) ρ = Stmt.resume cx all n after ρ' := by
  have hmem : l ∈ labelsIn all := by simp [hall, mem_labelsIn]
  rw [again_of_some h hleft, Stmt.again, if_pos hmem]
  show Eval.loop _ _ n (some l) ρ' = EStateM.bind _ _ ρ'
  rw [loop_eq, EStateM.bind]
  show EStateM.bind _ _ ρ' = _
  rw [EStateM.bind, hall, evalSeq_of_label hl]

lemma resume_exhausted (h : s.eval cx ρ = .error (.goto l) ρ') (hleft : l ∉ labelsIn ss)
    (hl : l ∈ labelsIn all) : Stmt.resume cx all 0 (s :: ss) ρ = .error .exhausted ρ' := by
  rw [again_of_some h hleft, Stmt.again, if_pos hl]
  rfl

end

end TreeMachine.Structured
