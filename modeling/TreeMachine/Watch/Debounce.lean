import TreeMachine.Watch.Event

/-!
# Waiting for quiet

Changes come in bursts. A debouncer takes changes as they arrive and, when none has come
for some time, offers the last one. While it offers a change it takes no other. It stops
when it is cancelled or when no more changes can come; what has not been taken by then is
lost.

The debouncer is a transition system: `Debounce.step?` says which actions are possible in
a state and what they do, and leaves open which one happens.
-/

namespace TreeMachine.Watch

/-- The state of a debouncer. -/
inductive Debounce where
  /-- Taking changes, with the last one and whether the timer is waited for. -/
  | waiting (pending : Option Event) (timed : Bool)
  /-- Offering a change. -/
  | offering (event : Event)
  | stopped
  deriving Repr, DecidableEq

namespace Debounce

/-- What can happen to a debouncer. -/
inductive Action where
  /-- A change arrives. -/
  | receive (event : Event)
  /-- The quiet time has passed. -/
  | fire
  /-- The change on offer is taken. -/
  | take
  | cancel
  /-- No more changes can come. -/
  | close
  deriving Repr, DecidableEq

def start : Debounce := .waiting none false

/-- The state after an action, and the change that was delivered; nothing if the action is
not possible. -/
def step? : Debounce → Action → Option (Debounce × Option Event)
  | .waiting _ _, .receive e => some (.waiting (some e) true, none)
  | .waiting (some e) true, .fire => some (.offering e, none)
  | .waiting none true, .fire => some (.waiting none false, none)
  | .waiting _ _, .cancel => some (.stopped, none)
  | .waiting _ _, .close => some (.stopped, none)
  | .offering e, .take => some (.waiting none false, some e)
  | .offering _, .cancel => some (.stopped, none)
  | _, _ => none

/-- Goes through actions, leaving out those that are not possible, and gives the changes
that were delivered. -/
def run (d : Debounce) : List Action → List Event × Debounce
  | [] => ([], d)
  | a :: rest =>
    match d.step? a with
    | none => d.run rest
    | some (d, delivered) =>
      let (es, d) := d.run rest
      (delivered.toList ++ es, d)

/-- The actions of a burst of changes after which there is quiet and the last change is
taken. -/
def burst (events : List Event) : List Action :=
  if events.isEmpty then [] else events.map .receive ++ [.fire, .take]

end Debounce

end TreeMachine.Watch
