import TreeMachine.Testing.Generator
import TreeMachine.Testing.Shrink

/-!
# Checking properties

A property is checked on the values of a generator in a number of trials. The first value
on which it fails is shrunk and reported. This is the verdict of a single worker, which
goes through the trials in their order; `TreeMachine.Testing.Pool` has any number of them.
-/

namespace TreeMachine.Testing

/-- How a property is checked. Numbers that are not positive take their defaults. -/
structure Plan where
  trials : Int := 0
  seed : UInt64 := 0
  size : Int := 0
  rounds : Int := 0
  deriving Repr, DecidableEq

namespace Plan

def trialCount (p : Plan) : Nat :=
  if p.trials ≤ 0 then 200 else p.trials.toNat

def sizeHint (p : Plan) : Int :=
  if p.size ≤ 0 then 8 else p.size

def roundCount (p : Plan) : Nat :=
  if p.rounds ≤ 0 then 200 else p.rounds.toNat

end Plan

/-- A failure: the value that was generated, the value it shrank to, and in how many
rounds. -/
structure Failure (α : Type) where
  input : α
  shrunk : α
  rounds : Nat
  deriving Repr, DecidableEq

/-- The outcome of a check. -/
structure Verdict (α : Type) where
  /-- The number of trials that passed. -/
  passed : Nat
  failure : Option (Failure α) := none
  deriving Repr, DecidableEq

/-- Goes through `n` trials, starting with number `i`, up to the first value on which the
property fails. The result is the number of trials that passed and that value. -/
def search {α : Type} (value : Nat → Except Crash α) (property : α → Bool) :
    Nat → Nat → Except Crash (Nat × Option α)
  | 0, i => .ok (i, none)
  | n + 1, i => do
    let v ← value i
    if property v then search value property n (i + 1) else .ok (i, some v)

/-- The verdict after a number of trials that passed and maybe a value that failed, which is
shrunk. -/
def Plan.conclude {α : Type} (plan : Plan) (shrink : Option (Shrinker α)) (property : α → Bool)
    (passed : Nat) (failing : Option α) : Verdict α :=
  let failure := failing.map fun v =>
    match shrink with
    | none => { input := v, shrunk := v, rounds := 0 }
    | some shrink =>
      let (shrunk, rounds) := shrinkFailure shrink property plan.roundCount v
      { input := v, shrunk, rounds }
  { passed, failure }

def forAll {α : Type} (gen : Gen α) (shrink : Option (Shrinker α)) (property : α → Bool)
    (plan : Plan) : Except Crash (Verdict α) := do
  let (passed, failing) ←
    search (gen.sample plan.seed plan.sizeHint) property plan.trialCount 0
  return plan.conclude shrink property passed failing

def Verdict.message? {α : Type} (v : Verdict α) (seed : UInt64) (shown : α → String) :
    Option String :=
  v.failure.map fun f =>
    s!"property failed after {v.passed} trials (seed {seed.toNat}, {f.rounds} shrink rounds)" ++
      s!"\ninput:  {shown f.input}\nshrunk: {shown f.shrunk}"

end TreeMachine.Testing
