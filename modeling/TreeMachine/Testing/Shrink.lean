/-!
# Smaller values

A shrinker proposes smaller candidates for a value, the boldest first. Shrinking a value
on which a property fails goes from candidate to failing candidate until none fails, or
until the rounds are used up.
-/

namespace TreeMachine.Testing

abbrev Shrinker (α : Type) := α → List α

/-- Toward zero: zero itself, half, and the next value, without repetition. -/
def shrinkInt32 : Shrinker Int32 := fun v =>
  if v = 0 then []
  else
    let half := v / 2
    let step := if v < 0 then v + 1 else v - 1
    [0] ++ (if half ≠ 0 then [half] else []) ++
      (if step ≠ 0 ∧ step ≠ half then [step] else [])

/-- Either half of a list, then the list with a smaller first element. -/
def shrinkList {α : Type} (elem : Option (Shrinker α)) : Shrinker (List α)
  | [] => []
  | v :: vs =>
    let mid := (v :: vs).length / 2
    let heads := match elem with
      | some shrink => shrink v
      | none => []
    [(v :: vs).take mid, (v :: vs).drop mid] ++ heads.map (· :: vs)

/-- Shrinks a value on which the property fails, for at most a number of rounds. Every round
goes to the first candidate that fails, and the round that finds none is the last. The
result is the last failing value and the number of rounds. -/
def shrinkFailure {α : Type} (shrink : Shrinker α) (property : α → Bool) : Nat → α → α × Nat
  | 0, v => (v, 0)
  | rounds + 1, v =>
    match (shrink v).find? fun c => !property c with
    | none => (v, 1)
    | some c =>
      let (best, n) := shrinkFailure shrink property rounds c
      (best, n + 1)

end TreeMachine.Testing
