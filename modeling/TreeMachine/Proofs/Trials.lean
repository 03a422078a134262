import Mathlib
import TreeMachine.Testing.Pool

/-!
# The verdict on a property does not depend on the schedule

A pool tests a property in trials, and the moves of its feeder, its workers and its
collector may come in any order. Whatever the order, when the collector has seen all it
waits for, its verdict is right: it reports a failure just when one of the trials fails,
the value that it reports is the value of such a trial, and the trials that it counts are
different ones that pass. With one worker the verdict is that of going through the trials
one after another.

The invariant is an account of the trials that were handed out: each is with one worker or
was counted once, and nothing is lost before the collector has stopped.
-/

open List

namespace TreeMachine.Testing

section

variable {α : Type} (sample : Nat → Except Crash α) (property : α → Bool)

/-- A trial ends: its value is made, and this is whether the property holds of it. -/
def Ends (i : Nat) (v : α) (ok : Bool) : Prop :=
  sample i = .ok v ∧ property v = ok

def passes (i : Nat) : Bool :=
  match sample i with
  | .ok v => property v
  | .error _ => false

variable {sample property}

lemma passes_of_ends (h : Ends sample property i v ok) : passes sample property i = ok := by
  obtain ⟨hv, hok⟩ := h
  rw [passes, hv]
  exact hok

lemma not_ends_of_passes (h : passes sample property i = true) :
    ¬Ends sample property i v false := by
  intro hends
  rw [passes_of_ends hends] at h
  cases h

/-! ### Going through the trials in turn -/

lemma search_of_passes (h : ∀ j, i ≤ j → j < i + n → passes sample property j = true) :
    search sample property n i = .ok (i + n, none) := by
  induction n generalizing i with
  | zero => rfl
  | succ n ih =>
    have hi := h i (le_refl i) (by omega)
    rw [passes] at hi
    cases hs : sample i with
    | error e => simp [hs] at hi
    | ok v =>
      rw [hs] at hi
      have hrest := ih (i := i + 1) fun j hj hlt => h j (by omega) (by omega)
      simp only [search, hs, bind, Except.bind, if_pos hi, hrest]
      rw [add_assoc, add_comm 1 n]

lemma search_of_fails (hik : i ≤ k) (hk : k < i + n)
    (h : ∀ j, i ≤ j → j < k → passes sample property j = true)
    (hv : Ends sample property k v false) : search sample property n i = .ok (k, some v) := by
  induction n generalizing i with
  | zero => omega
  | succ n ih =>
    rcases hik.eq_or_lt with rfl | hlt
    · simp [search, hv.1, hv.2, bind, Except.bind]
    · have hi := h i (le_refl i) hlt
      rw [passes] at hi
      cases hs : sample i with
      | error e => simp [hs] at hi
      | ok u =>
        rw [hs] at hi
        have hrest := ih (i := i + 1) hlt (by omega) fun j hj hjk => h j (by omega) hjk
        simp only [search, hs, bind, Except.bind, if_pos hi, hrest]

end

namespace Pool

variable {moves : List Move} {workers : Nat}

section

variable {α : Type} {sample : Nat → Except Crash α} {property : α → Bool} {trials : Nat}

/-! ### What a move does -/

/-- One move of a pool. -/
inductive Step (sample : Nat → Except Crash α) (property : α → Bool) (trials : Nat)
    (p : Pool α) : Pool α → Prop where
  | take {w} : p.workers[w]? = some .free → p.closed = false → p.next < trials →
    Step sample property trials p { p.put w (.busy p.next) with next := p.next + 1 }
  | finish {w i v} : p.workers[w]? = some (.busy i) → sample i = .ok v →
    Step sample property trials p (p.put w (.ready v (property v)))
  | pass {w v} : p.workers[w]? = some (.ready v true) → p.done trials = false →
    Step sample property trials p { p.put w .free with passed := p.passed + 1 }
  | fail {w v} : p.workers[w]? = some (.ready v false) → p.done trials = false →
    Step sample property trials p { p.put w .free with failing := some v }
  | close : p.closed = false → p.next = trials ∨ p.done trials = true →
    Step sample property trials p { p with closed := true }
  | retire {w} : p.workers[w]? = some .free → p.closed = true →
    Step sample property trials p (p.put w .gone)
  | discard {w v ok} : p.workers[w]? = some (.ready v ok) → p.done trials = true →
    Step sample property trials p (p.put w .gone)

lemma step_of_step? (h : p.step? sample property trials m = some p') :
    Step sample property trials p p' := by
  cases m with
  | take w =>
    simp only [step?] at h
    split at h
    · next hw =>
      split_ifs at h with hc
      cases h
      simp only [Bool.and_eq_true, Bool.not_eq_true', decide_eq_true_eq] at hc
      exact .take hw hc.1 hc.2
    · cases h
  | finish w =>
    simp only [step?] at h
    split at h
    · next hw =>
      split at h
      · next hv =>
        cases h
        exact .finish hw hv
      · cases h
    · cases h
  | report w =>
    simp only [step?] at h
    split at h
    · next v ok hw =>
      split_ifs at h with hd hok
      · cases h
        subst hok
        exact .pass hw (by simpa using hd)
      · cases h
        obtain rfl : ok = false := by simpa using hok
        exact .fail hw (by simpa using hd)
    · cases h
  | close =>
    simp only [step?] at h
    split_ifs at h with hc
    cases h
    simp only [Bool.and_eq_true, Bool.not_eq_true', Bool.or_eq_true, beq_iff_eq] at hc
    exact .close hc.1 hc.2
  | leave w =>
    simp only [step?] at h
    split at h
    · next hw =>
      split_ifs at h with hc
      cases h
      exact .retire hw hc
    · next hw =>
      split_ifs at h with hd
      cases h
      exact .discard hw hd
    · cases h

lemma invariant_of_run {inv : Pool α → Prop}
    (hstep : ∀ {p p'}, inv p → Step sample property trials p p' → inv p') {p p' : Pool α}
    (hp : inv p) (h : p.run? sample property trials moves = some p') :
    inv p' := by
  induction moves generalizing p with
  | nil =>
    cases h
    exact hp
  | cons m rest ih =>
    obtain ⟨p1, hm, hrest⟩ := Option.bind_eq_some_iff.1 h
    exact ih (hstep hp (step_of_step? hm)) hrest

lemma workers_put {p : Pool α} (h : (p.put w worker).workers[w']? = some worker') :
    w = w' ∧ worker' = worker ∨ w ≠ w' ∧ p.workers[w']? = some worker' := by
  simp only [put, List.getElem?_set] at h
  grind

/-! ### Where the trials are -/

def Holds (sample : Nat → Except Crash α) (property : α → Bool) : Worker α → Option Nat → Prop
  | .free, slot => slot = none
  | .busy i, slot => slot = some i
  | .ready v ok, slot => ∃ i, slot = some i ∧ Ends sample property i v ok
  | .gone, slot => slot = none

/-- An account of the trials that were handed out: which worker has which, and which ones the
collector has counted. -/
structure Account (sample : Nat → Except Crash α) (property : α → Bool) (trials : Nat)
    (p : Pool α) (slots : Nat → Option Nat) (seen : List Nat) : Prop where
  holds : ∀ {w worker}, p.workers[w]? = some worker → Holds sample property worker (slots w)
  slot : ∀ {w i}, slots w = some i → i < p.next ∧ i ∉ seen ∧ w < p.workers.length
  once : ∀ {w w' i}, slots w = some i → slots w' = some i → w = w'
  nodup : seen.Nodup
  counted : ∀ i ∈ seen, i < p.next ∧ passes sample property i = true
  passed : p.passed = seen.length
  next_le : p.next ≤ trials
  failing : ∀ v, p.failing = some v → ∃ i < p.next, Ends sample property i v false
  -- a trial can be lost only after the collector has stopped
  complete : p.done trials = false → ∀ i < p.next, i ∈ seen ∨ ∃ w, slots w = some i

lemma account_start (sample : Nat → Except Crash α) (property : α → Bool) (trials workers : Nat) :
    Account sample property trials (start workers) (fun _ => none) [] where
  holds := by
    intro w worker h
    simp only [start, List.getElem?_replicate] at h
    split at h
    · cases h
      rfl
    · cases h
  slot := by simp
  once := by simp
  nodup := List.nodup_nil
  counted := by simp
  passed := rfl
  next_le := Nat.zero_le trials
  failing := by simp [start]
  complete := by simp [start]

namespace Account

variable {p : Pool α} {slots : Nat → Option Nat} {seen : List Nat}

lemma holds_put (h : Account sample property trials p slots seen) (w : Nat) (worker : Worker α)
    {slot} (hw : Holds sample property worker slot) {w' worker'}
    (h' : (p.put w worker).workers[w']? = some worker') :
    Holds sample property worker' (Function.update slots w slot w') := by
  rcases workers_put h' with ⟨rfl, rfl⟩ | ⟨hne, hw'⟩
  · rwa [Function.update_self]
  · rw [Function.update_of_ne hne.symm]
    exact h.holds hw'

lemma take (h : Account sample property trials p slots seen) (hw : p.workers[w]? = some .free)
    (hn : p.next < trials) :
    Account sample property trials { p.put w (.busy p.next) with next := p.next + 1 }
      (Function.update slots w (some p.next)) seen where
  holds := h.holds_put w (.busy p.next) rfl
  slot := by
    intro w' i hi
    have hlt : w < p.workers.length := (List.getElem?_eq_some_iff.1 hw).1
    have hseen : p.next ∉ seen := fun hmem => by
      have := (h.counted _ hmem).1
      omega
    have := @h.slot w' i
    grind [put]
  once := by
    intro w1 w2 i h1 h2
    have hnew : ∀ w', slots w' ≠ some p.next := fun w' hw' => by
      have := (h.slot hw').1
      omega
    have := @h.once w1 w2 i
    grind
  nodup := h.nodup
  counted := fun i hi => ⟨Nat.lt_succ_of_lt (h.counted i hi).1, (h.counted i hi).2⟩
  passed := h.passed
  next_le := hn
  failing := by
    intro v hv
    obtain ⟨i, hi, hends⟩ := h.failing v hv
    exact ⟨i, Nat.lt_succ_of_lt hi, hends⟩
  complete := by
    intro hd i hi
    have hfree : slots w = none := h.holds hw
    rcases Nat.lt_succ_iff_lt_or_eq.1 hi with hi | rfl
    · rcases h.complete hd i hi with hseen | ⟨w', hw'⟩
      · exact .inl hseen
      · refine .inr ⟨w', ?_⟩
        rwa [Function.update_of_ne (by rintro rfl; simp [hfree] at hw')]
    · exact .inr ⟨w, Function.update_self ..⟩

lemma finish (h : Account sample property trials p slots seen) {w i : Nat} {v : α}
    (hw : p.workers[w]? = some (.busy i)) (hv : sample i = .ok v) :
    Account sample property trials (p.put w (.ready v (property v))) slots seen where
  holds := by
    intro w' worker h'
    have hslot : slots w = some i := h.holds hw
    have hready : Holds sample property (.ready v (property v)) (some i) := ⟨i, rfl, hv, rfl⟩
    have := h.holds_put w _ hready h'
    rwa [← hslot, Function.update_eq_self] at this
  slot := by
    intro w' j hj
    simpa [put] using h.slot hj
  once := h.once
  nodup := h.nodup
  counted := h.counted
  passed := h.passed
  next_le := h.next_le
  failing := h.failing
  complete := h.complete

/-- A worker is rid of its trial. The collector may count it or not, and nothing may be lost
as long as it has not stopped. -/
lemma release (h : Account sample property trials p slots seen) {w p'} (worker : Worker α)
    (hworkers : p'.workers = (p.put w worker).workers) (hworker : Holds sample property worker none)
    (hnext : p'.next = p.next) {seen'} (hpassed : p'.passed = seen'.length) (hnodup : seen'.Nodup)
    (hcounted : ∀ i ∈ seen', i ∈ seen ∨ slots w = some i ∧ passes sample property i = true)
    (hfailing : ∀ v, p'.failing = some v → ∃ i < p.next, Ends sample property i v false)
    (hcomplete : p'.done trials = false →
      p.done trials = false ∧ seen ⊆ seen' ∧ ∀ i, slots w = some i → i ∈ seen') :
    Account sample property trials p' (Function.update slots w none) seen' where
  holds := by
    rw [hworkers]
    exact h.holds_put w worker hworker
  slot := by
    intro w' i hi
    have hne : w' ≠ w := by
      rintro rfl
      simp at hi
    rw [Function.update_of_ne hne] at hi
    obtain ⟨hlt, hseen, hlen⟩ := h.slot hi
    refine ⟨hnext ▸ hlt, fun hmem => ?_, by simpa [hworkers, put] using hlen⟩
    rcases hcounted i hmem with hmem | ⟨hw, -⟩
    · exact hseen hmem
    · exact hne (h.once hi hw)
  once := by
    intro w1 w2 i h1 h2
    have := @h.once w1 w2 i
    grind
  nodup := hnodup
  counted := by
    intro i hi
    rw [hnext]
    rcases hcounted i hi with hmem | ⟨hw, hpass⟩
    · exact h.counted i hmem
    · exact ⟨(h.slot hw).1, hpass⟩
  passed := hpassed
  next_le := hnext ▸ h.next_le
  failing := by
    rwa [hnext]
  complete := by
    intro hd i hi
    obtain ⟨hd, hsub, hw⟩ := hcomplete hd
    rcases h.complete hd i (hnext ▸ hi) with hmem | ⟨w', hw'⟩
    · exact .inl (hsub hmem)
    · by_cases hww : w' = w
      · exact .inl (hw i (hww ▸ hw'))
      · exact .inr ⟨w', by rwa [Function.update_of_ne hww]⟩

end Account

lemma account_step (h : ∃ slots seen, Account sample property trials p slots seen)
    (hs : Step sample property trials p p') :
    ∃ slots seen, Account sample property trials p' slots seen := by
  obtain ⟨slots, seen, h⟩ := h
  cases hs with
  | take hw _ hn => exact ⟨_, _, h.take hw hn⟩
  | finish hw hv => exact ⟨_, _, h.finish hw hv⟩
  | @pass w v hw hd =>
    obtain ⟨i, hi, hends⟩ := h.holds hw
    have hnew := (h.slot hi).2.1
    refine ⟨_, i :: seen, h.release .free (by rfl) rfl (by rfl) (congrArg (· + 1) h.passed)
      (nodup_cons.2 ⟨hnew, h.nodup⟩) ?_ h.failing fun _ => ⟨hd, ?_, ?_⟩⟩
    · intro j hj
      rcases mem_cons.1 hj with rfl | hj
      · exact .inr ⟨hi, passes_of_ends hends⟩
      · exact .inl hj
    · exact subset_cons_self i seen
    · intro j hj
      rw [hi] at hj
      cases hj
      exact mem_cons_self
  | @fail w v hw hd =>
    obtain ⟨i, hi, hends⟩ := h.holds hw
    refine ⟨_, seen, h.release .free (by rfl) rfl (by rfl) h.passed h.nodup
      (fun j hj => .inl hj) ?_ ?_⟩
    · rintro v' ⟨⟩
      exact ⟨i, (h.slot hi).1, hends⟩
    · intro hd'
      simp [done] at hd'
  | close _ _ =>
    exact ⟨slots, seen, h.holds, h.slot, h.once, h.nodup, h.counted, h.passed, h.next_le,
      h.failing, h.complete⟩
  | @retire w hw _ =>
    have hfree : slots w = none := h.holds hw
    exact ⟨_, seen, h.release .gone rfl rfl rfl h.passed h.nodup (fun j hj => .inl hj) h.failing
      fun hd => ⟨hd, List.Subset.refl _, by simp [hfree]⟩⟩
  | @discard w v ok hw hd =>
    refine ⟨_, seen, h.release .gone rfl rfl rfl h.passed h.nodup
      (fun j hj => .inl hj) h.failing ?_⟩
    intro hd'
    exact absurd (hd.symm.trans hd') (by simp)

lemma account_of_run (h : (start workers).run? sample property trials moves = some p) :
    ∃ slots seen, Account sample property trials p slots seen :=
  invariant_of_run account_step ⟨_, _, account_start sample property trials workers⟩ h

lemma Account.all_passed (h : Account sample property trials p slots seen)
    (hp : p.passed = trials) : ∀ i < trials, passes sample property i = true := by
  have hsub : seen ⊆ List.range trials := fun i hi =>
    mem_range.2 ((h.counted i hi).1.trans_le h.next_le)
  have hperm : seen.Perm (List.range trials) := (h.nodup.subperm hsub).perm_of_length_le
    (by rw [length_range, ← hp, h.passed])
  intro i hi
  exact (h.counted i (hperm.mem_iff.2 (mem_range.2 hi))).2

lemma Account.passed_le (h : Account sample property trials p slots seen) :
    p.passed ≤ (List.range trials).countP (passes sample property) := by
  have hsub : seen ⊆ (List.range trials).filter (passes sample property) := fun i hi =>
    mem_filter.2 ⟨mem_range.2 ((h.counted i hi).1.trans_le h.next_le), (h.counted i hi).2⟩
  rw [h.passed, countP_eq_length_filter]
  exact (h.nodup.subperm hsub).length_le

/-! ### A single worker -/

/-- What a single worker is at while nothing has failed: the trial after the ones that were
counted. -/
def AtTurn (sample : Nat → Except Crash α) (property : α → Bool) (p : Pool α) : Worker α → Prop
  | .free => p.next = p.passed
  | .busy i => i = p.passed ∧ p.next = p.passed + 1
  | .ready v ok => Ends sample property p.passed v ok ∧ p.next = p.passed + 1
  | .gone => True

/-- A single worker goes through the trials in their order. -/
structure InTurn (sample : Nat → Except Crash α) (property : α → Bool) (p : Pool α) : Prop where
  before : ∀ j < p.passed, passes sample property j = true
  worker : ∃ worker, p.workers = [worker] ∧ (p.failing = none → AtTurn sample property p worker)
  failing : ∀ v, p.failing = some v → Ends sample property p.passed v false

lemma inTurn_start (sample : Nat → Except Crash α) (property : α → Bool) :
    InTurn sample property (start 1) :=
  ⟨by simp [start], ⟨.free, rfl, fun _ => rfl⟩, by simp [start]⟩

lemma InTurn.at_turn {p} (h : InTurn sample property p) {w worker}
    (hw : p.workers[w]? = some worker) :
    (∀ worker', (p.put w worker').workers = [worker']) ∧
      (p.failing = none → AtTurn sample property p worker) := by
  obtain ⟨worker', hworkers, hturn⟩ := h.worker
  rw [hworkers] at hw
  cases w with
  | succ w => simp at hw
  | zero =>
    obtain rfl : worker' = worker := by simpa using hw
    exact ⟨fun _ => by simp [put, hworkers], hturn⟩

lemma failing_eq_none {p : Pool α} (h : p.done trials = false) : p.failing = none := by
  simpa [done] using (Bool.or_eq_false_iff.1 h).1

lemma inTurn_step (h : InTurn sample property p) (hs : Step sample property trials p p') :
    InTurn sample property p' := by
  cases hs with
  | take hw _ _ =>
    obtain ⟨hput, hturn⟩ := h.at_turn hw
    refine ⟨h.before, ⟨.busy p.next, hput _, fun hf => ?_⟩, h.failing⟩
    have hnext : p.next = p.passed := hturn hf
    exact ⟨hnext, congrArg (· + 1) hnext⟩
  | @finish w i v hw hv =>
    obtain ⟨hput, hturn⟩ := h.at_turn hw
    refine ⟨h.before, ⟨.ready v (property v), hput _, fun hf => ?_⟩, h.failing⟩
    obtain ⟨rfl, hnext⟩ := hturn hf
    exact ⟨⟨hv, rfl⟩, hnext⟩
  | pass hw hd =>
    obtain ⟨hput, hturn⟩ := h.at_turn hw
    obtain ⟨hends, hnext⟩ := hturn (failing_eq_none hd)
    refine ⟨fun j hj => ?_, ⟨.free, hput _, fun _ => hnext⟩, ?_⟩
    · rcases Nat.lt_succ_iff_lt_or_eq.1 hj with hj | rfl
      · exact h.before j hj
      · exact passes_of_ends hends
    · intro v hv
      cases (failing_eq_none hd).symm.trans hv
  | fail hw hd =>
    obtain ⟨hput, hturn⟩ := h.at_turn hw
    obtain ⟨hends, -⟩ := hturn (failing_eq_none hd)
    refine ⟨h.before, ⟨.free, hput _, by simp⟩, ?_⟩
    rintro v ⟨⟩
    exact hends
  | close _ _ =>
    obtain ⟨worker, hworkers, hturn⟩ := h.worker
    exact ⟨h.before, ⟨worker, hworkers, hturn⟩, h.failing⟩
  | retire hw _ | discard hw _ =>
    obtain ⟨hput, -⟩ := h.at_turn hw
    exact ⟨h.before, ⟨.gone, hput _, fun _ => trivial⟩, h.failing⟩

lemma search_of_run (h : (start 1).run? sample property trials moves = some p)
    (hd : p.done trials = true) : search sample property trials 0 = .ok (p.passed, p.failing) := by
  have hturn := invariant_of_run inTurn_step (inTurn_start sample property) h
  obtain ⟨slots, seen, haccount⟩ := account_of_run h
  cases hf : p.failing with
  | none =>
    have hp : p.passed = trials := by simpa [done, hf] using hd
    rw [hp, search_of_passes fun j _ hj => hturn.before j (by omega), Nat.zero_add]
  | some v =>
    have hv := hturn.failing v hf
    -- the trial that failed was handed out
    have hlt : p.passed < trials := by
      obtain ⟨i, hi, hends⟩ := haccount.failing v hf
      by_contra hge
      exact not_ends_of_passes (hturn.before i (by have := haccount.next_le; omega)) hends
    exact search_of_fails (Nat.zero_le _) (by omega) (fun j _ hj => hturn.before j hj) hv

end

/-! ### The verdict -/

lemma conclude_input {α : Type} (plan : Plan) (shrink : Option (Shrinker α))
    (property : α → Bool) (passed : Nat) (failing : Option α) :
    (plan.conclude shrink property passed failing).failure.map (·.input) = failing := by
  cases failing <;> cases shrink <;> rfl

/-- For every schedule of every number of workers: when the collector has stopped, the verdict
reports a failure just when one of the trials fails; without one all trials were counted;
with one, the value that it reports is that of a trial that fails, and as many trials were
counted as pass, at most. The verdict of a single worker is that of `forAll`: the value is
the one of the first trial that fails, and the trials before it were counted. -/
theorem verdict_of_schedule {α : Type} (gen : Gen α) (shrink : Option (Shrinker α))
    (property : α → Bool) (plan : Plan) (workers : Nat) {p : Pool α}
    (hrun : (start workers).run? (gen.sample plan.seed plan.sizeHint) property plan.trialCount
      moves = some p) (hdone : p.done plan.trialCount = true) :
    let sample := gen.sample plan.seed plan.sizeHint
    let v := p.verdict shrink property plan
    (v.failure.isSome = true ↔ ∃ i < plan.trialCount, ∃ x, Ends sample property i x false) ∧
    (v.failure = none → v.passed = plan.trialCount) ∧
    (∀ f, v.failure = some f →
      (∃ i < plan.trialCount, Ends sample property i f.input false) ∧
      v.passed ≤ (List.range plan.trialCount).countP (passes sample property)) ∧
    (workers = 1 → forAll gen shrink property plan = .ok v ∧
      ∀ f, v.failure = some f → Ends sample property v.passed f.input false ∧
        ∀ j < v.passed, passes sample property j = true) := by
  intro sample v
  obtain ⟨slots, seen, haccount⟩ := account_of_run hrun
  have hinput : v.failure.map (·.input) = p.failing := conclude_input ..
  have hall : v.failure = none → p.passed = plan.trialCount := by
    intro hnone
    rw [hnone] at hinput
    simpa [done, ← hinput] using hdone
  have hsome : ∀ f, v.failure = some f → p.failing = some f.input := by
    intro f hf
    rw [← hinput, hf]
    rfl
  have hfails : ∀ f, v.failure = some f →
      ∃ i < plan.trialCount, Ends sample property i f.input false := by
    intro f hf
    obtain ⟨i, hi, hends⟩ := haccount.failing _ (hsome f hf)
    exact ⟨i, hi.trans_le haccount.next_le, hends⟩
  refine ⟨⟨fun hf => ?_, ?_⟩, hall, fun f hf => ⟨hfails f hf, haccount.passed_le⟩, ?_⟩
  · obtain ⟨f, hf⟩ := Option.isSome_iff_exists.1 hf
    obtain ⟨i, hi, hends⟩ := hfails f hf
    exact ⟨i, hi, f.input, hends⟩
  · rintro ⟨i, hi, x, hends⟩
    by_contra hf
    have hnone : v.failure = none := by simpa using hf
    exact not_ends_of_passes (haccount.all_passed (hall hnone) i hi) hends
  · rintro rfl
    have hturn := invariant_of_run inTurn_step (inTurn_start sample property) hrun
    constructor
    · show (search sample property plan.trialCount 0 >>= _) = _
      rw [search_of_run hrun hdone]
      rfl
    · intro f hf
      exact ⟨hturn.failing _ (hsome f hf), hturn.before⟩

def threeTrials : Plan := { trials := 3, seed := 1 }

/-- A schedule of two workers in which the last trial is reported before the second, whose
outcome nobody takes. -/
def overtaking : List Move :=
  [.take 0, .take 1, .finish 0, .report 0, .take 0, .finish 0, .report 0, .close, .finish 1,
    .leave 1, .leave 0]

/-- The failure that is reported need not be the first one. -/
theorem verdict_of_overtaking :
    ∃ p : Pool Int32,
      (start 2).run? ((Gen.int32 2).sample threeTrials.seed threeTrials.sizeHint) (· < 1)
        threeTrials.trialCount overtaking = some p ∧ p.done threeTrials.trialCount = true ∧
      p.verdict none (· < 1) threeTrials =
        { passed := 1, failure := some { input := 1, shrunk := 1, rounds := 0 } } ∧
      ∃ i < 3, Ends ((Gen.int32 2).sample 1 8) (· < 1) i 1 false := by
  have hrun : (start 2).run? ((Gen.int32 2).sample threeTrials.seed threeTrials.sizeHint)
      (fun v => decide (v < 1)) threeTrials.trialCount overtaking =
      some ⟨3, true, [.gone, .gone], 1, some 1⟩ := by decide +kernel
  have h := verdict_of_schedule (Gen.int32 2) none (· < 1) threeTrials 2 hrun (by decide)
  exact ⟨_, hrun, by decide, by decide, (h.2.2.1 _ rfl).1⟩

end Pool

end TreeMachine.Testing
