import TreeMachine.Machine.Basic
import TreeMachine.Proofs.Evaluation
import TreeMachine.Proofs.Layout

/-!
# Runs of the machine

`Steps` counts the steps that a run makes without ending, and carries along a property of
every state it leaves. `Lands` says how a run from a state matches the result of an
evaluation: where it gets to when the evaluation goes on, jumps, leaves the function or
fails, and how long it goes on at least when the evaluation uses up its budget. The rest of
the module runs single nodes.
-/

namespace TreeMachine.Machine

open Structured
open Linear

/-! ### States -/

/-- The state with its running frame at an address, in an environment, with these operands
and these recorded calls. -/
def State.stand (s : State) (ip : Nat) (ρ : Env) (ops : Operands) (t : List Called) : State :=
  { s with
    world := ρ.world
    operands := ops
    frame := { s.frame with ip := ip, regs := ρ.regs }
    trace := t }

@[simp] lemma State.stand_stand (s : State) (a b : Nat) (ρ ρ' : Env) (S S' : Operands)
    (t t' : List Called) : (s.stand a ρ S t).stand b ρ' S' t' = s.stand b ρ' S' t' := rfl

@[simp] lemma State.stand_world (s : State) (a : Nat) (ρ : Env) (S : Operands)
    (t : List Called) : (s.stand a ρ S t).world = ρ.world := rfl

@[simp] lemma State.stand_operands (s : State) (a : Nat) (ρ : Env) (S : Operands)
    (t : List Called) : (s.stand a ρ S t).operands = S := rfl

@[simp] lemma State.stand_fn (s : State) (a : Nat) (ρ : Env) (S : Operands)
    (t : List Called) : (s.stand a ρ S t).frame.fn = s.frame.fn := rfl

@[simp] lemma State.stand_ip (s : State) (a : Nat) (ρ : Env) (S : Operands)
    (t : List Called) : (s.stand a ρ S t).frame.ip = a := rfl

/-- How many operands on top a node takes the words of. -/
def takes : Node → Nat
  | .expr (.mem _) => 1
  | .expr (.binop _ _ _) => 2
  | .expr (.unop _ _) => 1
  | .expr (.call _ args) => args.length
  | .stmt (.move _ _) => 1
  | .stmt (.jump _) => 1
  | .stmt (.cjump _ _ _) => 1
  | .stmt (.ret values) => values.length
  | .stmt (.call _ _ args) => args.length
  | _ => 0

/-- The next node takes the word of a register that was not set when it was read. -/
def TakesUnset (p : Program) (s : State) : Prop :=
  s.frame.ip < s.frame.fn.stop ∧ ∃ n name, p.code[s.frame.ip.toNat]? = some n ∧
    Operand.reg name none ∈ s.operands.items.take (takes n)

lemma takesUnset_iff : TakesUnset p s ↔
    s.frame.ip < s.frame.fn.stop ∧ ∃ n ∈ p.code[s.frame.ip.toNat]?.toList,
      ∃ o ∈ s.operands.items.take (takes n), o.word? = none := by
  refine and_congr_right fun _ => ⟨?_, ?_⟩
  · rintro ⟨n, name, hn, hm⟩
    exact ⟨n, by simp [hn], _, hm, rfl⟩
  · rintro ⟨n, hn, o, ho, hw⟩
    obtain ⟨r, rfl⟩ := exists_reg_of_word? hw
    exact ⟨n, r, by simpa using hn, ho⟩

instance (p : Program) (s : State) : Decidable (TakesUnset p s) :=
  decidable_of_iff _ takesUnset_iff.symm

/-- The next node reads the word that a store of `src` is to overwrite. -/
def ReadsTarget (p : Program) (src : Expr) (s : State) : Prop :=
  s.frame.ip < s.frame.fn.stop ∧ ∃ addr, p.code[s.frame.ip.toNat]? = some (.expr (.mem addr)) ∧
    p.code[s.frame.ip.toNat + 1 + Linear.extent (Linear.itemsOfExpr src)]? =
      some (.stmt (.move (.mem addr) src))

/-! ### Steps -/

/-- A run of some steps that does not end; every state it leaves has a property. -/
inductive Steps (M : Setup) (Q : State → Prop) : Nat → State → State → Prop where
  | refl (s : State) : Steps M Q 0 s s
  | head {n : Nat} {s s1 s2 : State} : Q s → step M s = .ok .running s1 → Steps M Q n s1 s2 →
    Steps M Q (n + 1) s s2

def Path (M : Setup) (Q : State → Prop) (s s' : State) : Prop :=
  ∃ n, Steps M Q n s s'

def Reaches (M : Setup) (s s' : State) : Prop :=
  Path M (fun _ => True) s s'

section

variable {M : Setup} {Q : State → Prop} {s s1 s2 : State} {m n : Nat}

lemma Steps.trans (h : Steps M Q m s s1) (g : Steps M Q n s1 s2) : Steps M Q (m + n) s s2 := by
  induction h with
  | refl => simpa using g
  | head hq hs _ ih => rw [add_right_comm]; exact .head hq hs (ih g)

lemma Path.refl (s : State) : Path M Q s s := ⟨0, .refl s⟩

lemma Path.trans (h : Path M Q s s1) (g : Path M Q s1 s2) : Path M Q s s2 := by
  obtain ⟨m, h⟩ := h
  obtain ⟨n, g⟩ := g
  exact ⟨m + n, h.trans g⟩

lemma Path.single (hq : Q s) (h : step M s = .ok .running s1) : Path M Q s s1 :=
  ⟨1, .head hq h (.refl s1)⟩

lemma Path.head (hq : Q s) (h : step M s = .ok .running s1) (g : Path M Q s1 s2) : Path M Q s s2 :=
  (Path.single hq h).trans g

lemma Steps.imp (h : Steps M Q n s s1) (hq : ∀ s, Q s → Q' s) : Steps M Q' n s s1 := by
  induction h with
  | refl s => exact .refl s
  | head h hs _ ih => exact .head (hq _ h) hs ih

lemma Path.imp (h : Path M Q s s1) (hq : ∀ s, Q s → Q' s) : Path M Q' s s1 :=
  Exists.imp (fun _ hn => hn.imp hq) h

lemma Path.reaches (h : Path M Q s s1) : Reaches M s s1 := h.imp fun _ _ => trivial

/-- A run goes on from every state it reaches. -/
lemma run_of_steps (h : Steps M Q n s s1) (k : Nat) : run M (n + k) s = run M k s1 := by
  induction h with
  | refl => simp
  | head _ hs _ ih => rw [add_right_comm, run, hs]; exact ih

/-- Of two runs from one state the shorter is the beginning of the longer. -/
lemma Steps.of_steps (h : Steps M Q m s s1) (g : Steps M Q' n s s2) (hmn : m ≤ n) :
    Steps M Q' (n - m) s1 s2 := by
  induction h generalizing n with
  | refl => simpa using g
  | @head m s t s1 hq hs _ ih =>
    cases g with
    | refl => omega
    | @head n _ t' _ hq' hs' g =>
      obtain rfl : t = t' := by
        have := hs.symm.trans hs'
        injection this
      have := ih g (by omega)
      rwa [show n + 1 - (m + 1) = n - m by omega]

end

/-! ### Matching a result -/

/-- What is asked of the states in which an evaluation is abandoned. -/
structure Exits (σ : Type) where
  go : String → σ → State → Prop
  home : List Int32 → σ → State → Prop
  fault : Fault → σ → State → Prop
  target : Fault → Expr → σ → State → Prop
  unset : State → Prop

/-- One demand on abandoned evaluations is stronger than another. -/
structure Exits.Le {σ : Type} (X Y : Exits σ) : Prop where
  go : ∀ {l ρ s}, X.go l ρ s → Y.go l ρ s
  home : ∀ {vs ρ s}, X.home vs ρ s → Y.home vs ρ s
  fault : ∀ {c ρ s}, X.fault c ρ s → Y.fault c ρ s
  target : ∀ {c src ρ s}, X.target c src ρ s → Y.target c src ρ s
  unset : ∀ {s}, X.unset s → Y.unset s

lemma Exits.Le.refl {σ : Type} (X : Exits σ) : X.Le X := ⟨id, id, id, id, id⟩

/-- What is asked of the state that a run gets to in `k` steps for a result. A jump takes a
step at least, and where the budget is used up there were `n` steps. -/
def Meets {σ α : Type} (n k : Nat) (X : Exits σ) (fin : α → σ → State → Prop) :
    EStateM.Result Stop σ α → State → Prop
  | .ok x ρ, s => fin x ρ s
  | .error (.goto l) ρ, s => 0 < k ∧ X.go l ρ s
  | .error (.leave vs) ρ, s => X.home vs ρ s
  | .error (.fault c) ρ, s => X.fault c ρ s
  | .error (.target c src) ρ, s => X.target c src ρ s
  | .error .unset _, s => X.unset s
  | .error .exhausted _, _ => n ≤ k

/-- A run from a state matches the result of an evaluation. -/
def Lands {σ α : Type} (M : Setup) (Q : State → Prop) (n : Nat) (X : Exits σ)
    (fin : α → σ → State → Prop) (s : State) (r : EStateM.Result Stop σ α) : Prop :=
  ∃ k s', Steps M Q k s s' ∧ Meets n k X fin r s'

section

variable {σ α β : Type} {M : Setup} {Q : State → Prop} {n k : Nat} {X Y : Exits σ}
  {fin fin' : α → σ → State → Prop} {s s' : State} {r : EStateM.Result Stop σ α}

lemma Meets.imp (h : Meets n k X fin r s) (hk : k ≤ k') (hX : X.Le Y)
    (hf : ∀ x ρ, r = .ok x ρ → fin x ρ s → fin' x ρ s) : Meets n k' Y fin' r s := by
  match r with
  | .ok x ρ => exact hf x ρ rfl h
  | .error (.goto l) ρ => exact ⟨lt_of_lt_of_le h.1 hk, hX.go h.2⟩
  | .error (.leave vs) ρ => exact hX.home h
  | .error (.fault c) ρ => exact hX.fault h
  | .error (.target c src) ρ => exact hX.target h
  | .error .unset ρ => exact hX.unset h
  | .error .exhausted ρ => exact le_trans h hk

lemma Lands.now (h : Meets n 0 X fin r s) : Lands M Q n X fin s r :=
  ⟨0, s, .refl s, h⟩

lemma Lands.done (h : fin x ρ s) : Lands M Q n X fin s (.ok x ρ) :=
  .now h

lemma Lands.later (hp : Steps M Q j s s') (h : Lands M Q n X fin s' r) :
    Lands M Q (n + j) X fin s r := by
  obtain ⟨k, t, ht, hm⟩ := h
  refine ⟨j + k, t, hp.trans ht, ?_⟩
  match r with
  | .ok x ρ => exact hm
  | .error (.goto l) ρ => exact ⟨lt_of_lt_of_le hm.1 (Nat.le_add_left _ _), hm.2⟩
  | .error (.leave vs) ρ => exact hm
  | .error (.fault c) ρ => exact hm
  | .error (.target c src) ρ => exact hm
  | .error .unset ρ => exact hm
  | .error .exhausted ρ =>
    have : n ≤ k := hm
    show n + j ≤ j + k
    omega

lemma Lands.le (h : Lands M Q n X fin s r) (hm : m ≤ n) : Lands M Q m X fin s r := by
  obtain ⟨k, t, ht, hmeet⟩ := h
  refine ⟨k, t, ht, ?_⟩
  match r with
  | .ok x ρ => exact hmeet
  | .error (.goto l) ρ => exact hmeet
  | .error (.leave vs) ρ => exact hmeet
  | .error (.fault c) ρ => exact hmeet
  | .error (.target c src) ρ => exact hmeet
  | .error .unset ρ => exact hmeet
  | .error .exhausted ρ => exact le_trans hm hmeet

lemma Lands.after (hp : Steps M Q j s s') (h : Lands M Q n X fin s' r) : Lands M Q n X fin s r :=
  (Lands.later hp h).le (Nat.le_add_right n j)

lemma Lands.step (hq : Q s) (hs : step M s = .ok .running s') (h : Lands M Q n X fin s' r) :
    Lands M Q n X fin s r :=
  .after (.head hq hs (.refl s')) h

lemma Lands.jump (hq : Q s) (hs : Machine.step M s = .ok .running s') (h : X.go l ρ s') :
    Lands M Q n X fin s (.error (.goto l) ρ) :=
  ⟨1, s', .head hq hs (.refl s'), Nat.one_pos, h⟩

lemma Lands.imp (h : Lands M Q n X fin s r) (hX : X.Le Y)
    (hf : ∀ x ρ s', r = .ok x ρ → fin x ρ s' → fin' x ρ s') : Lands M Q n Y fin' s r := by
  obtain ⟨k, t, ht, hm⟩ := h
  exact ⟨k, t, ht, hm.imp (le_refl k) hX fun x ρ => hf x ρ t⟩

lemma Lands.andThen (h : Lands M Q n X fin s r) (hX : X.Le Y)
    (hf : ∀ x ρ s', r = .ok x ρ → fin x ρ s' → Lands M Q n Y fin' s' (.ok x ρ)) :
    Lands M Q n Y fin' s r := by
  obtain ⟨k, t, ht, hm⟩ := h
  match r with
  | .ok x ρ => exact .after ht (hf x ρ t rfl hm)
  | .error e ρ => exact ⟨k, t, ht, hm.imp (le_refl k) hX (by simp)⟩

/-- Runs of the parts of an evaluation make up a run of the whole. -/
lemma Lands.bind {m : EStateM Stop σ α} {f : α → EStateM Stop σ β}
    {fin' : β → σ → State → Prop} {ρ : σ} (hm : Lands M Q n X fin s (m ρ)) (hX : X.Le Y)
    (hf : ∀ x ρ' s', m ρ = .ok x ρ' → fin x ρ' s' → Lands M Q n Y fin' s' (f x ρ')) :
    Lands M Q n Y fin' s ((m >>= f) ρ) := by
  obtain ⟨k, t, ht, hmt⟩ := hm
  cases hr : m ρ with
  | ok x ρ' =>
    rw [hr] at hmt
    rw [bind_ok hr]
    exact .after ht (hf x ρ' t hr hmt)
  | error e ρ' =>
    rw [hr] at hmt
    rw [bind_error hr]
    refine ⟨k, t, ht, ?_⟩
    cases e with
    | goto l => exact ⟨hmt.1, hX.go hmt.2⟩
    | leave vs => exact hX.home hmt
    | fault c => exact hX.fault hmt
    | target c src => exact hX.target hmt
    | unset => exact hX.unset hmt
    | exhausted => exact hmt

end

end TreeMachine.Machine
