import TreeMachine.Proofs.Steps

/-!
# Running single nodes

What one step does at a node, in terms of the evaluation of the node: the operands that the
node takes are on top of the stack, and what it does to registers and world is what the
evaluation does. A word that an evaluation takes from an operand is the word that the
machine takes (`valueOf_of_take`), whichever way unset registers are treated.
-/

namespace TreeMachine.Machine

open Structured
open Linear

variable {M : Setup} {p : Program} {s s' : State} {n : Node} {a : Nat} {ρ ρ' ρ1 ρ2 : Env}
  {S S' : Operands} {t t' : List Called} {care : Care} {o o1 o2 : Operand} {os : List Operand}
  {v w : Int32} {vs : List Int32} {c : Fault}

variable {b : Nat} {operation : String} {x y : Expr}

/-! ### Steps -/

section

variable (hlo : s.frame.fn.start ≤ a) (hhi : a < s.frame.fn.stop)
  (hc : M.program.code[a]? = some n)

include hlo hhi hc

lemma step_eq : step M (s.stand a ρ S t) = (exec M.program n >>= fun
        | .next => do
          modify fun s => { s with frame := { s.frame with ip := s.frame.ip + 1 } }
          return .running
        | .goto addr => goto M.program addr
        | .leave results => leave M.program results
        | .enter fn addr args => do
          enter M fn addr args
          return .running) (s.stand a ρ S t) := by
  have hne : ¬((s.stand a ρ S t).frame.ip = (s.stand a ρ S t).frame.fn.stop) := by
    simp only [State.stand_fn, State.stand_ip]; omega
  have hin : ¬((s.stand a ρ S t).frame.ip < (s.stand a ρ S t).frame.fn.start ∨
      ((s.stand a ρ S t).frame.fn.stop : Int) < (s.stand a ρ S t).frame.ip) := by
    simp only [State.stand_fn, State.stand_ip]; omega
  have hnode : M.program.code[(s.stand a ρ S t).frame.ip.toNat]? = some n := by
    simpa only [State.stand_ip, Int.toNat_natCast] using hc
  unfold step
  rw [bind_ok (get_eq _)]
  exact congrFun ((if_neg hne).trans ((if_neg hin).trans (hnode ▸ rfl))) _

lemma step_next (he : exec M.program n (s.stand a ρ S t) = .ok .next (s.stand a ρ' S' t')) :
    step M (s.stand a ρ S t) = .ok .running (s.stand (a + 1) ρ' S' t') := by
  rw [step_eq hlo hhi hc, bind_ok he]
  rfl

lemma step_goto (he : exec M.program n (s.stand a ρ S t) = .ok (.goto b) (s.stand a ρ' S' t')) :
    step M (s.stand a ρ S t) = .ok .running (s.stand b ρ' S' t') := by
  have hb : ¬((b : Int) = -1) := by omega
  rw [step_eq hlo hhi hc, bind_ok he]
  simp only [goto, hb, if_false]
  rfl

lemma step_leave (he : exec M.program n (s.stand a ρ S t) = .ok (.leave vs) s') :
    step M (s.stand a ρ S t) = leave M.program vs s' := by
  rw [step_eq hlo hhi hc, bind_ok he]

lemma step_error (he : exec M.program n (s.stand a ρ S t) = .error c s') :
    step M (s.stand a ρ S t) = .error c s' := by
  rw [step_eq hlo hhi hc, bind_error he]

end

lemma step_stop (ha : a = s.frame.fn.stop) :
    step M (s.stand a ρ S t) = leave M.program [] (s.stand a ρ S t) := by
  unfold step
  rw [bind_ok (get_eq _)]
  simp only [State.stand_fn, State.stand_ip, ha, if_true]

/-! ### Words of operands -/

/-- The machine takes the word that the evaluation takes. -/
lemma valueOf_of_take (h : Eval.take care o ρ = .ok v ρ') :
    valueOf o (s.stand a ρ S t) = .ok v (s.stand a ρ' S t) := by
  match o with
  | .value _ | .mem _ _ | .reg _ (some _) | .symbol _ (some _) | .symbol _ none => cases h; rfl
  | .reg name none =>
    by_cases hc : care = .fills
    · subst hc
      cases hg : ρ.regs.get? name
      all_goals
        simp only [Eval.take, if_true, Eval.fill, bind, EStateM.bind, get_eq, hg] at h
        cases h
        simp only [valueOf, fill, bind, EStateM.bind, get_eq, State.stand, hg]
        rfl
    · simp only [Eval.take, hc, if_false] at h
      cases h

lemma valuesOf_of_takeAll (h : Eval.takeAll care os ρ = .ok vs ρ') :
    valuesOf os (s.stand a ρ S t) = .ok vs (s.stand a ρ' S t) := by
  induction os generalizing ρ vs with
  | nil => cases h; rfl
  | cons o os ih =>
    rw [Eval.takeAll] at h
    obtain ⟨v, ρ1, ho, h⟩ := bind_eq_ok h
    obtain ⟨ws, ρ2, hos, h⟩ := bind_eq_ok h
    cases h
    rw [valuesOf, bind_ok (valueOf_of_take ho), bind_ok (ih hos)]
    rfl

lemma takeAll_cons (ho : Eval.take care o ρ = .ok v ρ1)
    (hos : Eval.takeAll care os ρ1 = .ok vs ρ2) :
    Eval.takeAll care (o :: os) ρ = .ok (v :: vs) ρ2 := by
  rw [Eval.takeAll, bind_ok ho, bind_ok hos]
  rfl

lemma unset_of_take_error (h : Eval.take care o ρ = .error e ρ') :
    e = .unset ∧ care ≠ .fills ∧ ∃ name, o = .reg name none := by
  match o with
  | .value _ | .mem _ _ | .reg _ (some _) | .symbol _ (some _) | .symbol _ none => cases h
  | .reg name none =>
    by_cases hc : care = .fills
    · subst hc
      cases hg : ρ.regs.get? name <;>
        simp only [Eval.take, if_true, Eval.fill, bind, EStateM.bind, get_eq, hg] at h <;> cases h
    · simp only [Eval.take, hc, if_false] at h
      cases h
      exact ⟨rfl, hc, name, rfl⟩

lemma unset_of_takeAll_error (h : Eval.takeAll care os ρ = .error e ρ') :
    e = .unset ∧ care ≠ .fills ∧ ∃ name, .reg name none ∈ os := by
  induction os generalizing ρ with
  | nil => cases h
  | cons o os ih =>
    rw [Eval.takeAll] at h
    obtain ho | ⟨v, ρ1, -, h⟩ := bind_eq_error h
    · obtain ⟨he, hc, name, rfl⟩ := unset_of_take_error ho
      exact ⟨he, hc, name, List.mem_cons_self⟩
    · obtain ⟨he, hc, name, hm⟩ := ih (error_of_bind_pure h)
      exact ⟨he, hc, name, List.mem_cons_of_mem _ hm⟩

lemma env_of_take (hc : care ≠ .fills) (h : Eval.take care o ρ = .ok v ρ') :
    ρ' = ρ ∧ o.word? = some v := by
  match o with
  | .value _ | .mem _ _ | .reg _ (some _) | .symbol _ (some _) | .symbol _ none =>
    cases h
    exact ⟨rfl, rfl⟩
  | .reg name none => simp only [Eval.take, hc, if_false] at h; cases h

lemma ne_of_word? (h : o.word? = some v) (name : String) : o ≠ .reg name none := by
  rintro rfl
  cases h

lemma env_of_takeAll (hc : care ≠ .fills) (h : Eval.takeAll care os ρ = .ok vs ρ') :
    ρ' = ρ ∧ ∀ name, .reg name none ∉ os := by
  induction os generalizing ρ vs with
  | nil => cases h; exact ⟨rfl, by simp⟩
  | cons o os ih =>
    rw [Eval.takeAll] at h
    obtain ⟨v, ρ1, ho, h⟩ := bind_eq_ok h
    obtain ⟨ws, ρ2, hos, h⟩ := bind_eq_ok h
    cases h
    obtain ⟨rfl, ho'⟩ := env_of_take hc ho
    obtain ⟨rfl, hos'⟩ := ih hos
    refine ⟨rfl, fun name hm => ?_⟩
    rcases List.mem_cons.1 hm with he | hm
    · exact ne_of_word? ho' name he.symm
    · exact hos' name hm

lemma popValue_push (h : Eval.take care o ρ = .ok v ρ') :
    popValue operation (s.stand a ρ (S.push o) t) = .ok v (s.stand a ρ' S t) :=
  valueOf_of_take h

lemma popMany_append :
    popMany operation os.length (s.stand a ρ (S.append os) t) = .ok os (s.stand a ρ S t) := by
  simp only [popMany, State.stand_operands, Operands.popMany_append]
  rfl

lemma popValues_append (h : Eval.takeAll care os ρ = .ok vs ρ') :
    popValues operation os.length (s.stand a ρ (S.append os) t) = .ok vs (s.stand a ρ' S t) := by
  rw [popValues, bind_ok popMany_append]
  exact valuesOf_of_takeAll h

lemma onWorld_ok {α : Type} {f : Act α} {x : α} {world : World} (h : f ρ.world = .ok x world) :
    onWorld f (s.stand a ρ S t) = .ok x (s.stand a { ρ with world } S t) := by
  simp only [onWorld, State.stand, h]

lemma onWorld_error {α : Type} {f : Act α} {world : World} (h : f ρ.world = .error c world) :
    onWorld f (s.stand a ρ S t) = .error c (s.stand a { ρ with world } S t) := by
  simp only [onWorld, State.stand, h]

/-! ### Expressions -/

lemma exec_const : exec p (.expr (.const v)) (s.stand a ρ S t) =
    .ok .next (s.stand a ρ (S.push (.value v)) t) := rfl

lemma exec_temp (name : String) : exec p (.expr (.temp name)) (s.stand a ρ S t) =
    .ok .next (s.stand a ρ (S.push (.reg name (ρ.regs.get? name))) t) := rfl

lemma exec_name (l : String) : exec p (.expr (.name l)) (s.stand a ρ S t) =
    .ok .next (s.stand a ρ (S.push (.symbol l p.labels[l]?)) t) := rfl

lemma exec_mem (h : Eval.take care o ρ = .ok v ρ') :
    exec p (.expr (.mem x)) (s.stand a ρ (S.push o) t) =
      match ρ'.world.heap.load v with
      | .ok w => .ok .next (s.stand a ρ' (S.push (.mem v w)) t)
      | .error c => .error c (s.stand a ρ' S t) := by
  simp only [exec]
  rw [bind_ok (popValue_push h)]
  cases hl : ρ'.world.heap.load v with
  | ok w => exact bind_ok (onWorld_ok (by simp only [World.inspect, hl]))
  | error c => exact bind_error (onWorld_error (by simp only [World.inspect, hl]))

lemma exec_binop (op : BinOp) (hl : Eval.take care o1 ρ = .ok v ρ1)
    (hr : Eval.take care o2 ρ1 = .ok w ρ2) :
    exec p (.expr (.binop op x y)) (s.stand a ρ ((S.push o1).push o2) t) =
      match Word.binop op v w with
      | .ok u => .ok .next (s.stand a ρ2 (S.push (.value u)) t)
      | .error c => .error c (s.stand a ρ2 S t) := by
  have hv : Eval.takeAll care [o1, o2] ρ = .ok [v, w] ρ2 := takeAll_cons hl (takeAll_cons hr rfl)
  have hpop : popValues op.text 2 (s.stand a ρ ((S.push o1).push o2) t) =
      .ok [v, w] (s.stand a ρ2 S t) := popValues_append hv
  simp only [exec]
  rw [bind_ok hpop]
  cases hb : Word.binop op v w <;> simp only [hb] <;> rfl

lemma exec_unop (h : Eval.take care o ρ = .ok v ρ') :
    exec p (.expr (.unop op x)) (s.stand a ρ (S.push o) t) =
      .ok .next (s.stand a ρ' (S.push (.value (Word.unop op v))) t) := by
  simp only [exec]
  rw [bind_ok (popValue_push h)]
  rfl

lemma exec_eseq : exec p (.expr (.eseq st x)) (s.stand a ρ S t) = .ok .next (s.stand a ρ S t) := rfl

/-! ### Statements -/

lemma exec_seq : exec p (.stmt (.seq ss)) (s.stand a ρ S t) = .ok .next (s.stand a ρ S t) := rfl

lemma exec_exp : exec p (.stmt (.exp x)) (s.stand a ρ (S.push o) t) =
    .ok .next (s.stand a ρ S t) := rfl

lemma exec_move_temp (h : Eval.take care o ρ = .ok v ρ') :
    exec p (.stmt (.move x y)) (s.stand a ρ ((S.push (.reg r u)).push o) t) =
      .ok .next (s.stand a { ρ' with regs := ρ'.regs.set r v } S t) := by
  simp only [exec]
  rw [bind_ok (popValue_push h)]
  rfl

lemma exec_move_mem (h : Eval.take care o ρ = .ok v ρ') :
    exec p (.stmt (.move x y)) (s.stand a ρ ((S.push (.mem w u)).push o) t) =
      match World.store w v ρ'.world with
      | .ok _ world => .ok .next (s.stand a { ρ' with world } S t)
      | .error c world => .error c (s.stand a { ρ' with world } S t) := by
  have hpop : pop "move" (s.stand a ρ' (S.push (.mem w u)) t) =
      .ok (.mem w u) (s.stand a ρ' S t) := rfl
  simp only [exec]
  rw [bind_ok (popValue_push h), bind_ok hpop]
  cases hs : World.store w v ρ'.world with
  | ok x world => exact bind_ok (onWorld_ok hs)
  | error c world => exact bind_error (onWorld_error hs)

lemma exec_move_other (h : Eval.take care o2 ρ = .ok v ρ') (hreg : ∀ name u, o1 ≠ .reg name u)
    (hmem : ∀ addr u, o1 ≠ .mem addr u) :
    exec p (.stmt (.move x y)) (s.stand a ρ ((S.push o1).push o2) t) =
      .error (.operandTag "move" o1.kind) (s.stand a ρ' S t) := by
  have hpop : pop "move" (s.stand a ρ' (S.push o1) t) = .ok o1 (s.stand a ρ' S t) := rfl
  simp only [exec]
  rw [bind_ok (popValue_push h), bind_ok hpop]
  match o1 with
  | .reg name u => exact absurd rfl (hreg name u)
  | .mem addr u => exact absurd rfl (hmem addr u)
  | .value u | .symbol f u => rfl

lemma exec_jump : exec p (.stmt (.jump x)) (s.stand a ρ (S.push (.symbol l (some b))) t) =
      .ok (.goto b) (s.stand a ρ S t) := rfl

lemma exec_cjump (h : Eval.take care o ρ = .ok v ρ')
    (hb : p.labels[if v ≠ 0 then yes else no]? = some b) :
    exec p (.stmt (.cjump x yes no)) (s.stand a ρ (S.push o) t) =
      .ok (.goto b) (s.stand a ρ' S t) := by
  simp only [exec]
  rw [bind_ok (popValue_push h)]
  simp only [addressOf, hb, Option.getD_some]
  rfl

lemma exec_ret (hlen : xs.length = os.length) (h : Eval.takeAll care os ρ = .ok vs ρ') :
    exec p (.stmt (.ret xs)) (s.stand a ρ (S.append os) t) =
      .ok (.leave vs) (s.stand a ρ' S t) := by
  simp only [exec, hlen]
  rw [bind_ok (popValues_append h)]
  rfl

/-! ### Calls -/

/-- The node that calls a name with a number of arguments. -/
def IsCall (n : Node) (f : String) (argc : Nat) : Prop :=
  (∃ args, n = .expr (.call (.name f) args) ∧ args.length = argc) ∨
    ∃ returns args, n = .stmt (.call returns (.name f) args) ∧ args.length = argc

/-- What a call node does when the call has given its results. -/
def returned (n : Node) (results : List Int32) : Exec Signal := do
  deliver n results
  modify fun s => { s with frame := { s.frame with ip := s.frame.ip + 1 } }
  return .running

/-- The state in which a called function starts to run. -/
def entered (M : Setup) (s : State) (fn : Range) (addr : Int) (args : List Int32) : State :=
  { s with
    frame := newFrame fn addr args s.operands.height
    waiting := s.frame :: s.waiting
    depth := s.depth + 1
    trace := if M.traced then ⟨fn.name, args, s.depth + 1⟩ :: s.trace else s.trace }

/-- The node that calls something with a number of arguments. -/
def CallsWith (n : Node) (argc : Nat) : Prop :=
  (∃ x args, n = .expr (.call x args) ∧ args.length = argc) ∨
    ∃ returns x args, n = .stmt (.call returns x args) ∧ args.length = argc

lemma IsCall.callsWith (h : IsCall n f argc) : CallsWith n argc := by
  obtain ⟨args, rfl, hlen⟩ | ⟨returns, args, rfl, hlen⟩ := h
  · exact .inl ⟨_, args, rfl, hlen⟩
  · exact .inr ⟨returns, _, args, rfl, hlen⟩

/-- A call node takes its arguments and its target off the stack and calls. -/
lemma exec_call (hn : CallsWith n os.length) (h : Eval.takeAll care os ρ = .ok vs ρ') :
    exec p n (s.stand a ρ ((S.push o).append os) t) = (dispatch p o vs >>= fun
        | .inl results => do
          deliver n results
          return .next
        | .inr (fn, addr) => return .enter fn addr vs) (s.stand a ρ' S t) := by
  have hpop : ∀ operation, pop operation (s.stand a ρ' (S.push o) t) =
      .ok o (s.stand a ρ' S t) := fun _ => rfl
  obtain ⟨x, args, rfl, hlen⟩ | ⟨returns, x, args, rfl, hlen⟩ := hn
  all_goals
    simp only [exec, call, hlen]
    exact (bind_ok (popValues_append h)).trans (bind_ok (hpop _))

section

variable (hlo : s.frame.fn.start ≤ a) (hhi : a < s.frame.fn.stop)
  (hc : M.program.code[a]? = some n) (hn : CallsWith n os.length)
  (h : Eval.takeAll care os ρ = .ok vs ρ')

include hlo hhi hc hn h

lemma step_call_inl {results : List Int32} {world : World}
    (hd : dispatch M.program o vs (s.stand a ρ' S t) =
      .ok (.inl results) (s.stand a { ρ' with world } S t)) :
    step M (s.stand a ρ ((S.push o).append os) t) =
      returned n results (s.stand a { ρ' with world } S t) := by
  rw [step_eq hlo hhi hc]
  have he : exec M.program n (s.stand a ρ ((S.push o).append os) t) =
      (deliver n results >>= fun _ => pure .next) (s.stand a { ρ' with world } S t) :=
    (exec_call hn h).trans (bind_ok hd)
  show _ = (deliver n results >>= fun _ => _) (s.stand a { ρ' with world } S t)
  cases hdel : deliver n results (s.stand a { ρ' with world } S t) with
  | ok u s1 =>
    rw [bind_ok hdel] at he
    rw [bind_ok he, bind_ok hdel]
  | error c s1 =>
    rw [bind_error hdel] at he
    rw [bind_error he, bind_error hdel]

lemma step_call_error (hd : dispatch M.program o vs (s.stand a ρ' S t) = .error c s') :
    step M (s.stand a ρ ((S.push o).append os) t) = .error c s' := by
  have he := exec_call (p := M.program) (s := s) (a := a) (S := S) (t := t) (o := o) hn h
  rw [bind_error hd] at he
  rw [step_eq hlo hhi hc, bind_error he]

lemma step_call_inr
    (hd : dispatch M.program o vs (s.stand a ρ' S t) = .ok (.inr (fn, addr)) (s.stand a ρ' S t)) :
    step M (s.stand a ρ ((S.push o).append os) t) =
      if M.maxDepth ≤ s.depth then .error (.callDepthExceeded s.depth) (s.stand a ρ' S t)
      else .ok .running (entered M (s.stand a ρ' S t) fn addr vs) := by
  have he := exec_call (p := M.program) (s := s) (a := a) (S := S) (t := t) (o := o) hn h
  rw [bind_ok hd] at he
  rw [step_eq hlo hhi hc, bind_ok he]
  show (enter M fn addr vs >>= fun _ => pure Signal.running) (s.stand a ρ' S t) = _
  by_cases hdepth : M.maxDepth ≤ s.depth
  · have hent : enter M fn addr vs (s.stand a ρ' S t) =
        .error (.callDepthExceeded s.depth) (s.stand a ρ' S t) := by
      simp only [enter, bind, EStateM.bind, get_eq, State.stand, hdepth, if_true]
      rfl
    rw [bind_error hent, if_pos hdepth]
  · have hent : enter M fn addr vs (s.stand a ρ' S t) =
        .ok () (entered M (s.stand a ρ' S t) fn addr vs) := by
      simp only [enter, bind, EStateM.bind, get_eq, State.stand, hdepth, if_false]
      rfl
    rw [bind_ok hent, if_neg hdepth]
    rfl

end

lemma dispatch_routine (hr : Routine.ofName? f = some r) (vs : List Int32) :
    dispatch p (.symbol f none) vs (s.stand a ρ S t) =
      match r.run s.frame.fn.name vs ρ.world with
      | .ok results world => .ok (.inl results) (s.stand a { ρ with world } S t)
      | .error c world => .error c (s.stand a { ρ with world } S t) := by
  simp only [dispatch, hr]
  rw [bind_ok (get_eq _)]
  cases hrun : r.run s.frame.fn.name vs ρ.world with
  | ok results world => exact bind_ok (onWorld_ok hrun)
  | error c world => exact bind_error (onWorld_error hrun)

section

variable {f : String} {addr : Nat} {fn : Range} (hlo : s.frame.fn.start ≤ a)
  (hhi : a < s.frame.fn.stop) (hc : M.program.code[a]? = some n) (hn : IsCall n f os.length)
  (h : Eval.takeAll care os ρ = .ok vs ρ')

include hlo hhi hc hn h

lemma step_call_routine (hl : M.program.labels[f]? = none) (hr : Routine.ofName? f = some r) :
    step M (s.stand a ρ ((S.push (.symbol f M.program.labels[f]?)).append os) t) =
      match r.run s.frame.fn.name vs ρ'.world with
      | .ok results world => returned n results (s.stand a { ρ' with world } S t)
      | .error c world => .error c (s.stand a { ρ' with world } S t) := by
  have hd := dispatch_routine (p := M.program) (s := s) (a := a) (ρ := ρ') (S := S) (t := t)
    hr vs
  rw [hl]
  cases hrun : r.run s.frame.fn.name vs ρ'.world with
  | ok results world =>
    rw [hrun] at hd
    exact step_call_inl hlo hhi hc hn.callsWith h hd
  | error c world =>
    rw [hrun] at hd
    exact step_call_error hlo hhi hc hn.callsWith h hd

lemma step_call_function (hl : M.program.labels[f]? = some addr)
    (hf : callee M.program f addr = .ok fn) :
    step M (s.stand a ρ ((S.push (.symbol f M.program.labels[f]?)).append os) t) =
      if M.maxDepth ≤ s.depth then .error (.callDepthExceeded s.depth) (s.stand a ρ' S t)
      else .ok .running (entered M (s.stand a ρ' S t) fn addr vs) := by
  refine step_call_inr hlo hhi hc hn.callsWith h ?_
  simp only [dispatch, hl, dispatch.enterAt, hf]
  rfl

end

/-- Leaving a called function hands the results to the call, on the stack that the call had
left. -/
lemma leave_to_caller {caller : State} (hw : s.waiting = caller.frame :: caller.waiting)
    (hd : s.depth = caller.depth + 1) (hb : s.frame.base = caller.operands.height)
    (ho : caller.operands.items <:+ s.operands.items) (hip : caller.frame.ip = a)
    (hc : p.code[a]? = some n) :
    leave p vs s = returned n vs { caller with world := s.world, trace := s.trace } := by
  have hcode : p.code[caller.frame.ip.toNat]? = some n := by
    rw [hip, Int.toNat_natCast]; exact hc
  have hops : s.operands.truncate s.frame.base = caller.operands := by
    rw [hb]; exact Operands.truncate_of_suffix ho
  have hdepth : s.depth - 1 = caller.depth := by omega
  simp only [leave, bind, EStateM.bind, modify_eq, get_eq, hw, set, EStateM.set,
    hcode, hops, hdepth]
  rfl

lemma returned_expr : returned (.expr x) vs (s.stand a ρ S t) =
      .ok .running (s.stand (a + 1) { ρ with regs := ρ.regs.setAll retReg 1 vs }
        (S.push (.value (vs.headD 0))) t) := rfl

lemma returned_stmt : returned (.stmt (.call returns x args)) vs (s.stand a ρ S t) =
      if 0 < returns ∧ (vs.length : Int) < returns then
        .error (.returnCount x.text returns vs.length)
          (s.stand a { ρ with regs := ρ.regs.setAll retReg 1 vs } S t)
      else .ok .running (s.stand (a + 1) { ρ with regs := ρ.regs.setAll retReg 1 vs } S t) := by
  by_cases h : 0 < returns ∧ (vs.length : Int) < returns
  · rw [if_pos h]
    simp only [returned, deliver, bind, EStateM.bind, modify_eq, h, and_self, if_true]
    rfl
  · rw [if_neg h]
    simp only [returned, deliver, bind, EStateM.bind, modify_eq, h, if_false]
    rfl

end TreeMachine.Machine
