import Mathlib
import TreeMachine.Watch.Poll

/-!
# A poll reports the changes between looks

A history of a poll is what is asked of it, with how files look at the time. The last look at
a path is the one of the last scan, or the one of the time when the path was added. A scan
reports a path just when it looks different now, and reports it once, in whatever order the
paths are gone through. What is reported of a path in the course of time is what can happen
to a file: one that is there is written or removed, and one that is not is created.
-/

open List

namespace TreeMachine.Watch.Poll

/-- What is asked of a poll, and how paths look then. -/
inductive Act where
  | add (path : String) (look : String → Option Look)
  | remove (path : String)
  | scan (look : String → Option Look)

/-- One act. A scan goes through the paths in any order. -/
inductive Step (p : Poll) : Act → List Event → Poll → Prop where
  | add (path : String) (look : String → Option Look) :
    Step p (.add path look) [] (p.add look path)
  | remove (path : String) : Step p (.remove path) [] (p.remove path)
  | scan (look : String → Option Look) (q : Poll) : q.seen.Perm p.seen →
    Step p (.scan look) (q.scan look).1 (q.scan look).2

/-- The acts of a poll so far, with all that was reported. -/
inductive Runs : List Act → List Event → Poll → Prop where
  | start : Runs [] [] {}
  | step {acts events p act new p'} : Runs acts events p → Step p act new p' →
    Runs (acts ++ [act]) (events ++ new) p'

def Act.added? : Act → Option String
  | add path _ => some path
  | _ => none

/-- The last look at a path after an act, given the one before it; none if the path is not
watched. -/
def Act.lookAfter (path : String) (last : Option (Option Look)) : Act → Option (Option Look)
  | add path' look => if path' = path then some (look path) else last
  | remove path' => if path' = path then none else last
  | scan look => last.map fun _ => look path

def lastLook (path : String) (acts : List Act) : Option (Option Look) :=
  acts.foldl (Act.lookAfter path) none

/-- Whether a file is there after an operation, given whether it was before. -/
def occurs (there : Bool) (op : Op) : Option Bool :=
  if there then if op = .remove then some false else if op = .write then some true else none
  else if op = .create then some true else none

/-- The operations reported of a path. -/
def opsOf (path : String) (events : List Event) : List Op :=
  (events.filter (·.path = path)).map (·.op)

/-- The watched paths are different, and come with their last looks. -/
structure Remembers (p : Poll) (acts : List Act) : Prop where
  once : (p.seen.map Prod.fst).Nodup
  mem : ∀ path old, (path, old) ∈ p.seen ↔ lastLook path acts = some old

variable {acts : List Act} {events new : List Event} {p p' q : Poll} {act : Act}
  {path : String} {old now : Option Look} {look : String → Option Look}

lemma change_eq_none_iff : change old now = none ↔ now = old := by
  cases old <;> cases now <;> simp [change, eq_comm]

lemma occurs_of_change {op : Op} (h : change old now = some op) :
    occurs old.isSome op = some now.isSome := by
  cases old <;> cases now <;> simp only [change, reduceCtorEq, Option.some.injEq] at h
  · subst h; rfl
  · subst h; rfl
  · split at h <;> cases h
    rfl

@[simp] lemma lastLook_snoc (path : String) (acts : List Act) (act : Act) :
    lastLook path (acts ++ [act]) = act.lookAfter path (lastLook path acts) := by
  simp [lastLook]

@[simp] lemma opsOf_append (path : String) (events new : List Event) :
    opsOf path (events ++ new) = opsOf path events ++ opsOf path new := by
  simp [opsOf]

/-! ### One act -/

lemma seen_scan (p : Poll) (look : String → Option Look) :
    (p.scan look).2.seen = p.seen.map fun x => (x.1, look x.1) := by
  refine map_congr_left fun x _ => ?_
  by_cases h : change x.2 (look x.1) = none
  · simp [change_eq_none_iff.1 h]
  · simp [Option.isSome_iff_ne_none.2 h]

lemma paths_scan (p : Poll) (look : String → Option Look) :
    ((p.scan look).1.map Event.path).Sublist (p.seen.map Prod.fst) := by
  rw [scan, map_filterMap]
  induction p.seen with
  | nil => exact .slnil
  | cons x seen ih =>
    cases h : change x.2 (look x.1) with
    | none => simpa [h] using ih.cons x.1
    | some op => simpa [h] using ih.cons_cons x.1

lemma mem_scan {event : Event} : event ∈ (p.scan look).1 ↔
    ∃ old, (event.path, old) ∈ p.seen ∧ change old (look event.path) = some event.op := by
  obtain ⟨path, op⟩ := event
  simp only [scan, mem_filterMap, Prod.exists, Option.map_eq_some_iff, Event.mk.injEq]
  constructor
  · rintro ⟨_, old, hmem, op, hop, rfl, rfl⟩
    exact ⟨old, hmem, hop⟩
  · rintro ⟨old, hmem, hop⟩
    exact ⟨path, old, hmem, op, hop, rfl, rfl⟩

lemma Remembers.perm (h : p.Remembers acts) (hperm : q.seen.Perm p.seen) : q.Remembers acts where
  once := (hperm.map _).nodup_iff.2 h.once
  mem path old := by rw [hperm.mem_iff, h.mem]

lemma Remembers.remove (h : p.Remembers acts) (path : String) :
    (p.remove path).Remembers (acts ++ [.remove path]) where
  once := h.once.sublist (filter_sublist.map _)
  mem path' old := by
    simp [Poll.remove, h.mem, Act.lookAfter]
    grind

lemma Remembers.add (h : p.Remembers acts) (path : String) (look : String → Option Look) :
    (p.add look path).Remembers (acts ++ [.add path look]) where
  once := by
    simp only [Poll.add, map_append, nodup_append]
    refine ⟨(h.remove path).once, by simp, ?_⟩
    simp [Poll.remove]
  mem path' old := by
    simp [Poll.add, Poll.remove, h.mem, Act.lookAfter]
    grind

lemma Remembers.scan (h : p.Remembers acts) (look : String → Option Look) :
    (p.scan look).2.Remembers (acts ++ [.scan look]) where
  once := by simpa [seen_scan, Function.comp_def] using h.once
  mem path old := by
    simp [seen_scan, h.mem, Act.lookAfter]

lemma Remembers.step (h : p.Remembers acts) (hstep : Step p act new p') :
    p'.Remembers (acts ++ [act]) := by
  cases hstep with
  | add path look => exact h.add path look
  | remove path => exact h.remove path
  | scan look q hperm => exact (h.perm hperm).scan look

lemma remembers_of_runs (h : Runs acts events p) : p.Remembers acts := by
  induction h with
  | start => exact ⟨.nil, by simp [lastLook]⟩
  | step _ hstep ih => exact ih.step hstep

lemma nodup_scan (h : p.Remembers acts) (look : String → Option Look) :
    ((p.scan look).1.map Event.path).Nodup :=
  h.once.sublist (paths_scan p look)

/-- What a scan reports of a path follows from the last look and the one now. -/
lemma opsOf_scan (h : p.Remembers acts) (look : String → Option Look) (path : String) :
    opsOf path (p.scan look).1 = ((lastLook path acts).bind (change · (look path))).toList := by
  have hnodup : (((p.scan look).1.filter (·.path = path)).map Event.path).Nodup :=
    (nodup_scan h look).sublist (filter_sublist.map _)
  have hmem : ∀ event, event ∈ (p.scan look).1.filter (·.path = path) ↔ event.path = path ∧
      (lastLook path acts).bind (change · (look path)) = some event.op := by
    intro event
    rw [mem_filter, mem_scan]
    simp only [h.mem, decide_eq_true_eq, Option.bind_eq_some_iff]
    grind
  rw [opsOf]
  rcases hevents : (p.scan look).1.filter (·.path = path) with _ | ⟨event, _ | ⟨event', rest⟩⟩
  · cases hop : (lastLook path acts).bind (change · (look path)) with
    | none => simp [hevents]
    | some op => simpa [hevents] using (hmem ⟨path, op⟩).2 ⟨rfl, hop⟩
  · have hop := (hmem event).1 (by simp [hevents])
    simp [hevents, hop.2]
  · have hpath := (hmem event).1 (by simp [hevents])
    have hpath' := (hmem event').1 (by simp [hevents])
    simp [hevents, hpath.1, hpath'.1] at hnodup

/-! ### Whole histories -/

/-- What has been reported of a path that was added once can happen to a file that was there
then, or was not; it is there in the end as the last look has it. -/
def Follows (path : String) (first : Option Look) (acts : List Act) (events : List Event) :
    Prop :=
  ∃ there, (opsOf path events).foldlM occurs first.isSome = some there ∧
    ∀ last, lastLook path acts = some last → there = last.isSome

lemma Follows.step {first : Option Look} (h : Follows path first acts events)
    (hp : p.Remembers acts) (hstep : Step p act new p') (hact : act.added? ≠ some path) :
    Follows path first (acts ++ [act]) (events ++ new) := by
  obtain ⟨there, hops, hlast⟩ := h
  simp only [Follows, opsOf_append, foldlM_append, hops, lastLook_snoc]
  cases hstep with
  | add path' look =>
    have hpath : path' ≠ path := fun heq => hact (congrArg some heq)
    exact ⟨there, rfl, by simpa [Act.lookAfter, hpath] using hlast⟩
  | remove path' =>
    refine ⟨there, rfl, fun last h => hlast last ?_⟩
    rw [Act.lookAfter] at h
    grind
  | scan look q hperm =>
    rw [opsOf_scan (hp.perm hperm)]
    cases hold : lastLook path acts with
    | none => exact ⟨there, rfl, by simp [Act.lookAfter]⟩
    | some old =>
      obtain rfl := hlast old hold
      refine ⟨(look path).isSome, ?_, by simp [Act.lookAfter]⟩
      cases hop : change old (look path) with
      | none => simpa [hop] using congrArg Option.isSome (change_eq_none_iff.1 hop).symm
      | some op => simp [hop, occurs_of_change hop]

lemma opsOf_eq_nil (h : Runs acts events p) (hpath : path ∉ acts.filterMap Act.added?) :
    opsOf path events = [] ∧ lastLook path acts = none := by
  induction h with
  | start => exact ⟨rfl, rfl⟩
  | step hrun hstep ih =>
    rw [filterMap_append, mem_append, not_or] at hpath
    obtain ⟨hops, hlast⟩ := ih hpath.1
    rw [opsOf_append, hops, lastLook_snoc, hlast]
    cases hstep with
    | add path' look => simpa [Act.added?, Act.lookAfter, eq_comm, opsOf] using hpath.2
    | remove path' => simp [Act.lookAfter, opsOf]
    | scan look q hperm =>
      simp [opsOf_scan ((remembers_of_runs hrun).perm hperm), hlast, Act.lookAfter]

lemma follows_of_runs (h : Runs acts events p) (honce : (acts.filterMap Act.added?).Nodup)
    {before after : List Act} (hacts : acts = before ++ .add path look :: after) :
    Follows path (look path) acts events := by
  induction h generalizing after with
  | start => simp at hacts
  | @step acts events p act new p' hrun hstep ih =>
    rw [filterMap_append, nodup_append] at honce
    obtain rfl | ⟨after, last, rfl⟩ := after.eq_nil_or_concat
    · obtain ⟨rfl, hact⟩ := append_inj' hacts rfl
      cases hact
      have hpath : path ∉ acts.filterMap Act.added? :=
        fun hmem => honce.2.2 path hmem path (by simp [Act.added?]) rfl
      cases hstep
      refine ⟨(look path).isSome, ?_, by simp [Act.lookAfter]⟩
      rw [List.append_nil, (opsOf_eq_nil hrun hpath).1]
      rfl
    · rw [concat_eq_append, ← cons_append, ← append_assoc] at hacts
      obtain ⟨rfl, hact⟩ := append_inj' hacts rfl
      cases hact
      refine (ih honce.1 rfl).step (remembers_of_runs hrun) hstep fun hadd => ?_
      exact honce.2.2 path (by simp [Act.added?]) path (by simp [hadd]) rfl

/-- A scan reports the paths that look different from the last time, each once. What is
reported of a path in the course of time can happen to a file that was there, or was not,
when the path was added. -/
theorem changes_reported (hrun : Runs acts events p)
    (honce : (acts.filterMap Act.added?).Nodup) :
    (∀ look new p', Step p (.scan look) new p' → (new.map Event.path).Nodup ∧
      ∀ path, path ∈ new.map Event.path ↔
        ∃ old, lastLook path acts = some old ∧ look path ≠ old) ∧
      ∀ before path look after, acts = before ++ .add path look :: after →
        Follows path (look path) acts events := by
  refine ⟨?_, fun before path look after => follows_of_runs hrun honce⟩
  intro look new p' hstep
  cases hstep with
  | scan _ q hperm =>
    have hq := (remembers_of_runs hrun).perm hperm
    refine ⟨nodup_scan hq look, fun path => ?_⟩
    simp only [mem_map, mem_scan, hq.mem]
    constructor
    · rintro ⟨event, ⟨old, hold, hop⟩, rfl⟩
      exact ⟨old, hold, fun h => by simp [change_eq_none_iff.2 h] at hop⟩
    · rintro ⟨old, hold, hne⟩
      obtain ⟨op, hop⟩ := Option.ne_none_iff_exists'.1 (mt change_eq_none_iff.1 hne)
      exact ⟨⟨path, op⟩, ⟨old, hold, hop⟩, rfl⟩

/-- How things look if nothing but `/a` and `/b` can be there. -/
def lookTwo (a b : Option Look) (path : String) : Option Look :=
  if path = "/a" then a else if path = "/b" then b else none

/-- Of two paths one appears, is written and disappears again, while the other one is there
until the last scan. -/
theorem changes_reported_two :
    let acts := [.add "/a" (lookTwo none none), .add "/b" (lookTwo none (some ⟨0, 2⟩)),
      .scan (lookTwo (some ⟨1, 0⟩) (some ⟨0, 2⟩)), .scan (lookTwo (some ⟨2, 5⟩) (some ⟨0, 2⟩)),
      .scan (lookTwo none none)]
    let events : List Event :=
      [⟨"/a", .create⟩, ⟨"/a", .write⟩, ⟨"/a", .remove⟩, ⟨"/b", .remove⟩]
    Runs acts events ⟨[("/a", none), ("/b", none)]⟩ ∧ Follows "/a" none acts events := by
  intro acts events
  have hrun : Runs acts events ⟨[("/a", none), ("/b", none)]⟩ :=
    ((((Runs.start.step (.add _ _)).step (.add _ _)).step (.scan _ _ (.refl _))).step
      (.scan _ _ (.refl _))).step (.scan _ _ (.refl _))
  exact ⟨hrun, (changes_reported hrun (by decide)).2 [] _ _ _ rfl⟩

end TreeMachine.Watch.Poll
