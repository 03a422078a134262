import Mathlib
import TreeMachine.Watch.Debounce

/-!
# What a debouncer delivers

Changes arrive, the timer fires, changes on offer are taken, and the debouncer is cancelled
or its input closed, in any order. Whatever the order, the changes that are delivered are
some of those that were received, in the order in which they were received and each at most
once. The one that is delivered is the last that had been received when the timer fired,
and between two receipts at most one is delivered.

The invariant is about the log of a run: what has been delivered stands at positions before
that of the change which is held back.
-/

open List

namespace TreeMachine.Watch.Debounce

/-- What took place in a run: the actions that were possible, with what they delivered. -/
abbrev Log := List (Action × Option Event)

def log (d : Debounce) : List Action → Log
  | [] => []
  | a :: rest =>
    match d.step? a with
    | none => d.log rest
    | some (d', out) => (a, out) :: d'.log rest

def Action.event? : Action → Option Event
  | .receive e => some e
  | _ => none

def received (l : Log) : List Event :=
  l.filterMap fun x => x.1.event?

def delivered (l : Log) : List Event :=
  l.filterMap Prod.snd

@[simp] lemma received_append (l m : Log) : received (l ++ m) = received l ++ received m :=
  filterMap_append

@[simp] lemma delivered_append (l m : Log) : delivered (l ++ m) = delivered l ++ delivered m :=
  filterMap_append

lemma delivered_log (d : Debounce) (actions : List Action) :
    delivered (d.log actions) = (d.run actions).1 := by
  induction actions generalizing d with
  | nil => rfl
  | cons a rest ih =>
    rw [log, run]
    cases hs : d.step? a with
    | none => exact ih d
    | some r =>
      obtain ⟨d', out⟩ := r
      cases out <;> simp [delivered, ← ih d']

/-! ### Steps and runs -/

/-- One step of a debouncer, with the action and what it delivers. -/
inductive Step : Debounce → Action → Option Event → Debounce → Prop where
  | receive (pending : Option Event) (timed : Bool) (e : Event) :
    Step (.waiting pending timed) (.receive e) none (.waiting (some e) true)
  | fire (e : Event) : Step (.waiting (some e) true) .fire none (.offering e)
  | spare : Step (.waiting none true) .fire none (.waiting none false)
  | take (e : Event) : Step (.offering e) .take (some e) (.waiting none false)
  | stop (d : Debounce) {a : Action} : a = .cancel ∨ a = .close → Step d a none .stopped

lemma step_of_step? {d d' : Debounce} {a : Action} {out : Option Event}
    (h : d.step? a = some (d', out)) : Step d a out d' := by
  rw [step?.eq_def] at h
  split at h <;> cases h
  · exact .receive _ _ _
  · exact .fire _
  · exact .spare
  · exact .stop _ (.inl rfl)
  · exact .stop _ (.inr rfl)
  · exact .take _
  · exact .stop _ (.inl rfl)

/-- A run from one state to another, with its log. -/
inductive Runs : Debounce → Log → Debounce → Prop where
  | nil (d : Debounce) : Runs d [] d
  | cons {d d1 d2 : Debounce} {a : Action} {out : Option Event} {l : Log} :
    Step d a out d1 → Runs d1 l d2 → Runs d ((a, out) :: l) d2

lemma runs_log (d : Debounce) (actions : List Action) :
    Runs d (d.log actions) (d.run actions).2 := by
  induction actions generalizing d with
  | nil => exact .nil d
  | cons a rest ih =>
    rw [log, run]
    cases hs : d.step? a with
    | none => exact ih d
    | some r =>
      obtain ⟨d', out⟩ := r
      exact .cons (step_of_step? hs) (ih d')

lemma Runs.split {d d' : Debounce} {l m : Log} (h : Runs d (l ++ m) d') : ∃ d1, Runs d l d1 ∧
    Runs d1 m d' := by
  induction l generalizing d with
  | nil => exact ⟨d, .nil d, h⟩
  | cons x l ih =>
    cases h with
    | cons hstep hrest =>
      obtain ⟨d1, hl, hm⟩ := ih hrest
      exact ⟨d1, .cons hstep hl, hm⟩

/-- The timer is waited for just while there is a change to offer. -/
def Coupled : Debounce → Prop
  | .waiting pending timed => timed = pending.isSome
  | .offering _ | .stopped => True

lemma Runs.coupled {d d' : Debounce} {l : Log} (h : Runs d l d') (hd : d.Coupled) :
    d'.Coupled := by
  induction h with
  | nil => exact hd
  | cons hstep _ ih =>
    cases hstep with
    | spare => cases hd
    | receive | fire | take | stop => exact ih (by trivial)

/-! ### Between receipts -/

/-- How many changes a debouncer holds back. -/
def held : Debounce → Nat
  | .waiting (some _) _ | .offering _ => 1
  | .waiting none _ | .stopped => 0

/-- Without receipts no more is delivered than was held back. -/
lemma Runs.delivered_le (h : Runs d l d') (hl : received l = []) :
    (delivered l).length ≤ d.held := by
  induction h with
  | nil => exact Nat.zero_le _
  | cons hstep _ ih =>
    cases hstep with
    | receive => simp [received, Action.event?] at hl
    | fire | spare => exact ih hl
    | take e => exact Nat.succ_le_succ (ih hl)
    | stop d ha =>
      rcases ha with rfl | rfl <;> exact (ih hl).trans (Nat.zero_le _)

lemma held_le_one (d : Debounce) : d.held ≤ 1 := by
  rcases d with ⟨_ | e, timed⟩ | e | _ <;> simp [held]

/-! ### The positions of what is delivered -/

/-- A delivery at the end of `l`: the timer has just fired, and the change was the last one
received before that, at position `p`. -/
def Due (l : Log) (e : Event) (p : Nat) : Prop :=
  ∃ k, l = k ++ [(.fire, none)] ∧ (received k).length = p + 1 ∧ (received k)[p]? = some e

/-- What a log says, where the changes delivered are those at some positions of the ones
received. -/
structure Placed (l : Log) (d : Debounce) (positions : List Nat) : Prop where
  increasing : positions.Pairwise (· < ·)
  delivered : (delivered l).map some = positions.map ((received l)[·]?)
  /-- Every delivery was due. -/
  due : ∀ l0 l1 a e, l = l0 ++ (a, some e) :: l1 →
    ∃ p, positions[(Debounce.delivered l0).length]? = some p ∧ Due l0 e p
  /-- What is held back comes after all that was delivered. -/
  below : ∀ p ∈ positions, p + d.held < (received l).length
  pending : ∀ e timed, d = .waiting (some e) timed → (received l).getLast? = some e
  offer : ∀ e, d = .offering e → Due l e ((received l).length - 1)

lemma placed_nil : Placed [] start [] where
  increasing := .nil
  delivered := rfl
  due l0 l1 a e h := by simp at h
  below p hp := by cases hp
  pending e timed h := by cases h
  offer e h := by cases h

variable {l : Log} {d d' : Debounce} {positions : List Nat}

/-- A step that delivers nothing leaves the positions as they are. -/
lemma Placed.quiet {a : Action} (h : Placed l d positions)
    (hbelow : ∀ p ∈ positions, p + d'.held < (received (l ++ [(a, none)])).length)
    (hpending : ∀ e timed, d' = .waiting (some e) timed →
      (received (l ++ [(a, none)])).getLast? = some e)
    (hoffer : ∀ e, d' = .offering e →
      Due (l ++ [(a, none)]) e ((received (l ++ [(a, none)])).length - 1)) :
    Placed (l ++ [(a, none)]) d' positions where
  increasing := h.increasing
  delivered := by
    have hsame : Debounce.delivered (l ++ [(a, none)]) = Debounce.delivered l := by
      simp [Debounce.delivered]
    rw [hsame, h.delivered]
    refine map_congr_left fun p hp => ?_
    rw [received_append, List.getElem?_append_left (by have := h.below p hp; omega)]
  due l0 l1 b e hsplit := by
    rcases eq_nil_or_concat l1 with rfl | ⟨l1, x, rfl⟩
    · simp at hsplit
    · rw [concat_eq_append, ← cons_append, ← append_assoc] at hsplit
      exact h.due l0 l1 b e (append_inj_left' hsplit rfl)
  below := hbelow
  pending := hpending
  offer := hoffer

lemma Placed.take {e : Event} (h : Placed l (.offering e) positions) :
    Placed (l ++ [(.take, some e)]) (.waiting none false)
      (positions ++ [(received l).length - 1]) := by
  have hdue := h.offer e rfl
  have hsame : received (l ++ [(.take, some e)]) = received l := by
    simp [received, Action.event?]
  have hcount : positions.length = (Debounce.delivered l).length := by
    simpa using (congrArg List.length h.delivered).symm
  have hbelow : ∀ p ∈ positions, p + 1 < (received l).length := h.below
  obtain ⟨k, hk, hlen, hlast⟩ := id hdue
  have hkeep : received l = received k := by simp [hk, received, Action.event?]
  rw [← hkeep] at hlen hlast
  refine ⟨?_, ?_, ?_, ?_, by simp, by simp⟩
  · refine pairwise_append.2 ⟨h.increasing, pairwise_singleton _ _, ?_⟩
    intro p hp q hq
    have := hbelow p hp
    rw [mem_singleton.1 hq]
    omega
  · rw [hsame, delivered_append, map_append, map_append, h.delivered]
    simp [Debounce.delivered, hlast]
  · intro l0 l1 b e' hsplit
    rcases eq_nil_or_concat l1 with rfl | ⟨l1, x, rfl⟩
    · obtain ⟨rfl, hx⟩ := append_inj' hsplit rfl
      cases hx
      exact ⟨(received l).length - 1, by simp [← hcount], hdue⟩
    · rw [concat_eq_append, ← cons_append, ← append_assoc] at hsplit
      obtain ⟨p, hp, hduep⟩ := h.due l0 l1 b e' (append_inj_left' hsplit rfl)
      have hlt := (List.getElem?_eq_some_iff.1 hp).1
      exact ⟨p, by rw [List.getElem?_append_left hlt, hp], hduep⟩
  · intro p hp
    rw [hsame, held]
    rcases mem_append.1 hp with hp | hp
    · have := hbelow p hp
      omega
    · rw [mem_singleton.1 hp]
      omega

lemma Placed.step {a : Action} {out : Option Event} (h : Placed l d positions)
    (hstep : Step d a out d') :
    ∃ positions', Placed (l ++ [(a, out)]) d' positions' := by
  cases hstep with
  | receive pending timed e =>
    refine ⟨positions, h.quiet ?_ (by simp [received, Action.event?]) (by simp)⟩
    intro p hp
    have := h.below p hp
    simp only [received_append, length_append, held]
    exact Nat.add_lt_add_right (by omega) 1
  | fire e =>
    have hsame : received (l ++ [(.fire, none)]) = received l := by
      simp [received, Action.event?]
    refine ⟨positions, h.quiet (by rw [hsame]; exact h.below) (by simp) ?_⟩
    intro e' he'
    cases he'
    have hlast := h.pending e true rfl
    rw [List.getLast?_eq_getElem?] at hlast
    have hpos := (List.getElem?_eq_some_iff.1 hlast).1
    rw [hsame]
    exact ⟨l, rfl, by omega, hlast⟩
  | spare =>
    have hsame : received (l ++ [(.fire, none)]) = received l := by
      simp [received, Action.event?]
    exact ⟨positions, h.quiet (by rw [hsame]; exact h.below) (by simp) (by simp)⟩
  | take e => exact ⟨_, h.take⟩
  | stop d ha =>
    have hsame : received (l ++ [(a, none)]) = received l := by
      rcases ha with rfl | rfl <;> simp [received, Action.event?]
    refine ⟨positions, h.quiet ?_ (by simp) (by simp)⟩
    intro p hp
    rw [hsame]
    exact (Nat.le_add_right p _).trans_lt (h.below p hp)

lemma Placed.run {m : Log} (h : Placed l d positions) (hruns : Runs d m d') :
    ∃ positions', Placed (l ++ m) d' positions' := by
  induction hruns generalizing l positions with
  | nil d => exact ⟨positions, by simpa using h⟩
  | cons hstep _ ih =>
    obtain ⟨positions', h'⟩ := h.step hstep
    obtain ⟨positions'', h''⟩ := ih h'
    exact ⟨positions'', by simpa using h''⟩

/-- In every run the changes delivered are those at increasing positions of the changes
received. Each is delivered when it was due: the timer has just fired, and it is the one
that had been received last when it did. Where nothing is received at most one change is
delivered. -/
theorem deliveries_in_order (actions : List Action) :
    (start.run actions).1 = delivered (start.log actions) ∧
      (∃ positions : List Nat, positions.Pairwise (· < ·) ∧
        (delivered (start.log actions)).map some =
          positions.map ((received (start.log actions))[·]?) ∧
        ∀ l0 l1 a e, start.log actions = l0 ++ (a, some e) :: l1 →
          ∃ p, positions[(delivered l0).length]? = some p ∧ Due l0 e p) ∧
      ∀ l0 m l1, start.log actions = l0 ++ (m ++ l1) → received m = [] →
        (delivered m).length ≤ 1 := by
  have hruns := runs_log start actions
  refine ⟨(delivered_log start actions).symm, ?_, ?_⟩
  · obtain ⟨positions, h⟩ := placed_nil.run hruns
    exact ⟨positions, h.increasing, h.delivered, h.due⟩
  · intro l0 m l1 hsplit hm
    rw [hsplit] at hruns
    obtain ⟨d1, -, hrest⟩ := hruns.split
    obtain ⟨d2, hseg, -⟩ := hrest.split
    exact (hseg.delivered_le hm).trans d1.held_le_one

end TreeMachine.Watch.Debounce
