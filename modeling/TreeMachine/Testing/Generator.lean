import TreeMachine.Error
import TreeMachine.Random.Pcg

/-!
# Random values

A generator makes a value from a source of random words and a size hint. The source of a
trial depends on a seed and on the number of the trial only, so every trial can be made
again.
-/

namespace TreeMachine.Testing

/-- A computation that draws random words. It crashes if it has to choose from nothing. -/
abbrev Draw := StateT Pcg (Except Crash)

abbrev Gen (α : Type) := Int → Draw α

def source (seed : UInt64) (trial : Int) : Pcg where
  hi := seed
  lo := UInt64.ofNat (trial % UInt64.size).toNat

/-- Draws a number below `n`; `routine` is named if there is none. -/
def choose (routine : String) (n : Int) : Draw Nat := fun g =>
  if n ≤ 0 then .error (.emptyChoice routine) else .ok (g.below n.toNat)

namespace Gen

/-- Integers from `-limit` to `limit`. The number of choices is a 32-bit word: a limit for
which it overflows leaves nothing to choose. -/
def int32 (limit : Int32) : Gen Int32 := fun _ => do
  if limit ≤ 0 then return 0
  let n ← choose "Int32N" (2 * limit + 1).toInt
  return Int32.ofNat n - limit

def bool : Gen Bool := fun _ => do
  return (← choose "IntN" 2) == 0

/-- One of several generators, each with equal weight. -/
def oneOf {α : Type} (gens : List (Gen α)) : Gen α := fun size => do
  let i ← choose "IntN" gens.length
  match gens[i]? with
  | some g => g size
  | none => throw (.emptyChoice "IntN")

def repeated {α : Type} (g : Gen α) (size : Int) : Nat → Draw (List α)
  | 0 => return []
  | n + 1 => do
    let v ← g size
    let vs ← repeated g size n
    return v :: vs

/-- Lists of up to as many elements as the size says. -/
def list {α : Type} (g : Gen α) : Gen (List α) := fun size => do
  let n ← choose "IntN" (Int64.ofInt (max 0 size + 1)).toInt
  repeated g size n

def sample {α : Type} (g : Gen α) (seed : UInt64) (size : Int) (trial : Nat) :
    Except Crash α :=
  ((g size).run (source seed trial)).map Prod.fst

end Gen

end TreeMachine.Testing
