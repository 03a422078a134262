import TreeMachine.Testing.ForAll

/-!
# Trials on several workers

A feeder hands out the numbers of the trials in their order, each to a worker that is
free; a worker makes the value of its trial, tests it and hands the outcome to the
collector; the collector counts the trials that pass and stops at the first that fails.
Handing over takes both sides at once. When the collector has stopped, the feeder may close
down before all trials are handed out, and workers may leave with outcomes that nobody
takes. Who moves next is left open: `Pool.step?` says which moves are possible and what they
do.
-/

namespace TreeMachine.Testing

/-- What a worker is at. -/
inductive Worker (α : Type) where
  /-- It waits for a trial. -/
  | free
  /-- It has a trial to run. -/
  | busy (trial : Nat)
  /-- It waits to hand in the value of its trial and whether the property held. -/
  | ready (value : α) (ok : Bool)
  /-- It has left. -/
  | gone
  deriving Repr, DecidableEq

/-- The state of a pool. -/
structure Pool (α : Type) where
  /-- The number of the trial to hand out next. -/
  next : Nat := 0
  /-- Whether the feeder has closed down. -/
  closed : Bool := false
  workers : List (Worker α)
  /-- How many outcomes the collector has seen that passed. -/
  passed : Nat := 0
  /-- The value that failed, after which the collector takes no more outcomes. -/
  failing : Option α := none
  deriving Repr, DecidableEq

namespace Pool

variable {α : Type}

/-- A pool with a number of workers, all of them free. -/
def start (workers : Nat) : Pool α where
  workers := List.replicate workers .free

/-- The moves of a pool. -/
inductive Move where
  /-- A worker takes the next trial from the feeder. -/
  | take (worker : Nat)
  /-- A worker makes the value of its trial and tests it. -/
  | finish (worker : Nat)
  /-- A worker hands its outcome to the collector. -/
  | report (worker : Nat)
  /-- The feeder closes down. -/
  | close
  /-- A worker leaves. -/
  | leave (worker : Nat)
  deriving Repr, DecidableEq

/-- Whether the collector has seen all it waits for. -/
def done (p : Pool α) (trials : Nat) : Bool :=
  p.failing.isSome || p.passed == trials

def put (p : Pool α) (w : Nat) (worker : Worker α) : Pool α :=
  { p with workers := p.workers.set w worker }

/-- The state after a move; nothing if the move is not possible. A trial whose value cannot
be made does not finish. -/
def step? (sample : Nat → Except Crash α) (property : α → Bool) (trials : Nat) (p : Pool α) :
    Move → Option (Pool α)
  | .take w =>
    match p.workers[w]? with
    | some .free =>
      if !p.closed && p.next < trials then some { p.put w (.busy p.next) with next := p.next + 1 }
      else none
    | _ => none
  | .finish w =>
    match p.workers[w]? with
    | some (.busy i) =>
      match sample i with
      | .ok v => some (p.put w (.ready v (property v)))
      | .error _ => none
    | _ => none
  | .report w =>
    match p.workers[w]? with
    | some (.ready v ok) =>
      if p.done trials then none
      else if ok then some { p.put w .free with passed := p.passed + 1 }
      else some { p.put w .free with failing := some v }
    | _ => none
  | .close =>
    if !p.closed && (p.next == trials || p.done trials) then some { p with closed := true }
    else none
  | .leave w =>
    match p.workers[w]? with
    | some .free => if p.closed then some (p.put w .gone) else none
    | some (.ready _ _) => if p.done trials then some (p.put w .gone) else none
    | _ => none

/-- Goes through moves; nothing if one of them is not possible. -/
def run? (sample : Nat → Except Crash α) (property : α → Bool) (trials : Nat) (p : Pool α) :
    List Move → Option (Pool α)
  | [] => some p
  | m :: rest => (p.step? sample property trials m).bind fun p =>
    p.run? sample property trials rest

def verdict (p : Pool α) (shrink : Option (Shrinker α)) (property : α → Bool) (plan : Plan) :
    Verdict α :=
  plan.conclude shrink property p.passed p.failing

end Pool

end TreeMachine.Testing
