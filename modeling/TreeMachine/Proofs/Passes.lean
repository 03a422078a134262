import TreeMachine.Proofs.Confined
import TreeMachine.Proofs.Steps

/-!
# Runs through statement lists

The evaluation of a statement list skips to a label, and takes the list up again for a jump
backward. A run of the machine just goes to the address. `Passes` lists what is needed to
follow such an evaluation by runs of any kind of code: a position for every place of the
list, a run for every statement, and that a jump to a label gets to its position.
-/

open List

namespace TreeMachine.Machine

open Structured

variable {M : Setup} {Q : State → Prop} {cx : Context} {n : Nat} {X Y : Exits Env}
  {ss : List Stmt} {Pos : Nat → Env → State → Prop} {ρ : Env} {s : State}

/-- Where the evaluation of a list ends that looks for a label at its end: in a jump. -/
def fall (a : Eval (Option String)) : Eval Unit := do
  match ← a with
  | none => return ()
  | some l => throw (.goto l)

/-- What a run through a list of statements goes by: positions in the list, the run of each
statement, and how a jump finds a label. -/
structure Passes (M : Setup) (Q : State → Prop) (cx : Context) (n : Nat) (X : Exits Env)
    (ss : List Stmt) (Pos : Nat → Env → State → Prop) : Prop where
  stmt : ∀ {i st ρ s}, ss[i]? = some st → Pos i ρ s →
    Lands M Q n X (fun _ ρ' s' => Pos (i + 1) ρ' s') s (st.eval cx ρ)
  label : ∀ {i l ρ s}, ss[i]? = some (.label l) → X.go l ρ s → Pos i ρ s

lemma evalSeq_some_of_not_mem (h : l ∉ labelsIn ts) :
    Stmt.evalSeq cx ts (some l) ρ = .ok (some l) ρ := by
  induction ts with
  | nil => rfl
  | cons st ts ih =>
    rw [labelsIn_cons, mem_append, not_or] at h
    have hl : st.label? ≠ some l := fun he => h.1 (by simp [he])
    rw [Stmt.evalSeq, if_neg hl]
    exact ih h.2

lemma fall_eq : fall a ρ = match a ρ with
    | .ok none ρ' => .ok () ρ'
    | .ok (some l) ρ' => .error (.goto l) ρ'
    | .error e ρ' => .error e ρ' := by
  cases h : a ρ with
  | ok o ρ' => rw [fall, bind_ok h]; cases o <;> rfl
  | error e ρ' => rw [fall, bind_error h]

/-- One pass through the rest of a list, from its start or from a label on. -/
lemma Passes.pass (hp : Passes M Q cx n X ss Pos) :
    (ts : List Stmt) → (i : Nat) → i ≤ ss.length → ss.drop i = ts →
    (∀ {ρ s}, Pos i ρ s →
      Lands M Q n X (fun _ => Pos ss.length) s (fall (Stmt.evalSeq cx ts none) ρ)) ∧
    ∀ {l ρ s}, l ∈ labelsIn ts → X.go l ρ s →
      Lands M Q n X (fun _ => Pos ss.length) s (fall (Stmt.evalSeq cx ts (some l)) ρ)
  | [], i, hi, hts => by
    refine ⟨fun hpos => ?_, fun hl => by simp at hl⟩
    obtain rfl : i = ss.length := by
      have := drop_eq_nil_iff.1 hts
      omega
    exact .done hpos
  | st :: ts, i, hi, hts => by
    have hst : ss[i]? = some st := by
      have := congrArg (·[0]?) hts
      simpa [List.getElem?_drop] using this
    have hlt : i < ss.length := (List.getElem?_eq_some_iff.1 hst).1
    have htl : ss.drop (i + 1) = ts := by
      rw [← drop_drop, hts, drop_one, tail_cons]
    obtain ⟨ih, ihl⟩ := hp.pass ts (i + 1) hlt htl
    constructor
    · intro ρ s hpos
      obtain ⟨k, t, ht, hm⟩ := hp.stmt hst hpos
      have hseek : Stmt.evalSeq cx (st :: ts) none =
          Eval.seek (st.eval cx) >>= fun start => Stmt.evalSeq cx ts start := rfl
      rw [fall_eq, hseek]
      cases hr : st.eval cx ρ with
      | ok u ρ' =>
        rw [hr] at hm
        have hs : Eval.seek (st.eval cx) ρ = .ok none ρ' := by rw [Eval.seek, hr]
        rw [bind_ok hs, ← fall_eq]
        exact .after ht (ih hm)
      | error e ρ' =>
        rw [hr] at hm
        cases e with
        | goto l =>
          have hs : Eval.seek (st.eval cx) ρ = .ok (some l) ρ' := by rw [Eval.seek, hr]
          rw [bind_ok hs, ← fall_eq]
          by_cases hl : l ∈ labelsIn ts
          · exact .after ht (ihl hl hm.2)
          · rw [fall_eq, evalSeq_some_of_not_mem hl]
            exact ⟨k, t, ht, hm⟩
        | _ =>
          rw [bind_error (by rw [Eval.seek, hr])]
          exact ⟨k, t, ht, hm⟩
    · intro l ρ s hl hgo
      rw [fall_eq, Stmt.evalSeq, ← fall_eq]
      by_cases he : st.label? = some l
      · rw [if_pos he]
        obtain rfl := label?_eq_some.1 he
        -- the label itself takes the run to the statement after it
        obtain ⟨k, t, ht, hm⟩ := hp.stmt hst (hp.label hst hgo)
        exact .after ht (ih hm)
      · rw [if_neg he]
        rw [labelsIn_cons, mem_append] at hl
        exact ihl (hl.resolve_left (by simpa using he)) hgo

lemma evalSeq_ne_goto {ts start l ρ'} : Stmt.evalSeq cx ts start ρ ≠ .error (.goto l) ρ' := by
  induction ts generalizing start ρ with
  | nil => intro h; cases h
  | cons st ts ih =>
    cases start with
    | some m => exact ih
    | none =>
      have hseek : Stmt.evalSeq cx (st :: ts) none =
          Eval.seek (st.eval cx) >>= fun start => Stmt.evalSeq cx ts start := rfl
      rw [hseek]
      cases hr : Eval.seek (st.eval cx) ρ with
      | ok o ρ1 => rw [bind_ok hr]; exact ih
      | error e ρ1 =>
        rw [bind_error hr]
        rintro ⟨⟩
        unfold Eval.seek at hr
        split at hr <;> simp_all

/-- A list that is taken up again for jumps to its labels. Each of these jumps takes a step,
so a budget that is used up has been paid for. -/
lemma Passes.loop (hp : Passes M Q cx n X ss Pos)
    (hgo : ∀ {l ρ s}, l ∉ labelsIn ss → X.go l ρ s → Y.go l ρ s)
    (hle : Exits.Le { X with go := Y.go } Y) (k m : Nat) (hn : m ≤ n) (hk : m ≤ k)
    (start : Option String) {ρ : Env} {s : State}
    (hstart : Lands M Q n X (fun _ => Pos ss.length) s (fall (Stmt.evalSeq cx ss start) ρ)) :
    Lands M Q m Y (fun _ => Pos ss.length) s
      (Eval.loop (labelsIn ss) (fun start => Stmt.evalSeq cx ss start) k start ρ) := by
  obtain ⟨j, t, ht, hm⟩ := hstart
  rw [fall_eq] at hm
  unfold Eval.loop
  cases hr : Stmt.evalSeq cx ss start ρ with
  | ok o ρ' =>
    rw [hr] at hm
    rw [bind_ok hr]
    cases o with
    | none => exact ⟨j, t, ht, hm⟩
    | some l =>
      by_cases hl : l ∈ labelsIn ss
      · simp only [hl, if_true]
        cases k with
        | zero => exact ⟨j, t, ht, Nat.le_trans hk (Nat.zero_le j)⟩
        | succ k =>
          have hrest := hp.loop hgo hle k (m - 1) (by omega) (by omega) (some l)
            ((hp.pass ss 0 (Nat.zero_le _) rfl).2 hl hm.2)
          have hj : 0 < j := hm.1
          exact (Lands.later ht hrest).le (by omega)
      · simp only [hl, if_false]
        exact ⟨j, t, ht, hm.1, hgo hl hm.2⟩
  | error e ρ' =>
    rw [hr] at hm
    rw [bind_error hr]
    cases e with
    | goto l => exact absurd hr evalSeq_ne_goto
    | leave vs => exact ⟨j, t, ht, hle.home hm⟩
    | fault c => exact ⟨j, t, ht, hle.fault hm⟩
    | target c src => exact ⟨j, t, ht, hle.target hm⟩
    | unset => exact ⟨j, t, ht, hle.unset hm⟩
    | exhausted => exact ⟨j, t, ht, Nat.le_trans hn hm⟩
termination_by k

/-- The run of a whole list. -/
lemma Passes.seq (hp : Passes M Q cx n X ss Pos)
    (hgo : ∀ {l ρ s}, l ∉ labelsIn ss → X.go l ρ s → Y.go l ρ s)
    (hle : Exits.Le { X with go := Y.go } Y) (hn : n ≤ cx.budget) (h : Pos 0 ρ s) :
    Lands M Q n Y (fun _ => Pos ss.length) s ((Stmt.seq ss).eval cx ρ) := by
  rw [Stmt.eval]
  exact hp.loop hgo hle cx.budget n (Nat.le_refl n) hn none ((hp.pass ss 0 (Nat.zero_le _) rfl).1 h)

end TreeMachine.Machine
