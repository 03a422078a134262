import TreeMachine.Watch.Poll
import TreeMachine.Watch.Tracker

/-!
# Watchers

Either way to follow files: through notifications of the system, or by looking. What the
system answers, how files look and which paths names stand for is left to the surroundings.
-/

namespace TreeMachine.Watch

/-- The surroundings of a watcher in a state. -/
structure System (σ : Type) where
  /-- The clean path from the root that a name stands for. -/
  absolute : σ → String → Except String String
  serve : σ → Request → Except String Unit × σ
  look : σ → String → Option Look

/-- What follows files. -/
inductive Watcher where
  | tracker (t : Tracker)
  | poll (p : Poll)

namespace Watcher

def new (polled : Bool) : Watcher :=
  if polled then .poll {} else .tracker {}

/-- Carries out a wish. A poll needs no help of the system, and refuses only names. -/
def fulfil {σ : Type} (sys : System σ) (s : σ) (wish : Wish) :
    Watcher → Except String Unit × σ × Watcher
  | .tracker t =>
    let (outcome, t, s) := t.handle (sys.absolute s) sys.serve s wish
    (outcome, s, .tracker t)
  | .poll p =>
    match wish.resolve (sys.absolute s) with
    | .error e => (.error e, s, .poll p)
    | .ok (.add path) => (.ok (), s, .poll (p.add (sys.look s) path))
    | .ok (.remove path) => (.ok (), s, .poll (p.remove path))

/-- The changes that are reported, given the notifications raised and how files look now. -/
def observe (look : String → Option Look) (notices : List Event) : Watcher → List Event × Watcher
  | .tracker t => (t.passOn notices, .tracker t)
  | .poll p =>
    let (events, p) := p.scan look
    (events, .poll p)

end Watcher

end TreeMachine.Watch
