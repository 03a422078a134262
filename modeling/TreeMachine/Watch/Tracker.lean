import TreeMachine.Text.Path
import TreeMachine.Watch.Event

/-!
# Watching through directories

A tracker follows files through notifications about their directories, since a file is
often replaced by another one with its name. It counts the files it follows in each
directory, asks the system to watch a directory for the first of them, and to stop after
the last.
-/

namespace TreeMachine.Watch

/-- What a tracker asks of the system. -/
inductive Request where
  | watch (dir : String)
  | unwatch (dir : String)
  deriving Repr, DecidableEq

/-- What is asked of a watcher about the file of a name. -/
inductive Wish where
  | add (name : String)
  | remove (name : String)
  deriving Repr, DecidableEq

/-- The wish about the path that a name stands for, which may have none. -/
def Wish.resolve (absolute : String → Except String String) : Wish → Except String Wish
  | .add name => (absolute name).map .add
  | .remove name => (absolute name).map .remove

/-- The files that are followed, and how many of them each directory has. -/
structure Tracker where
  files : List String := []
  dirs : List (String × Nat) := []
  deriving Repr, DecidableEq

namespace Tracker

def count (t : Tracker) (dir : String) : Nat :=
  (t.dirs.lookup dir).getD 0

/-- Sets the count of a directory; a directory without files is forgotten. -/
def setCount (t : Tracker) (dir : String) (n : Nat) : List (String × Nat) :=
  let others := t.dirs.filter (·.1 != dir)
  if n = 0 then others else (dir, n) :: others

/-- What has to be asked of the system for a wish. Nothing is asked for a file that is
followed already, or that is not followed, or that shares its directory with another. -/
def request? (t : Tracker) : Wish → Option Request
  | .add path =>
    if t.files.contains path || t.count (Path.dir path) ≠ 0 then none
    else some (.watch (Path.dir path))
  | .remove path =>
    if t.files.contains path && t.count (Path.dir path) ≤ 1 then some (.unwatch (Path.dir path))
    else none

def follow (t : Tracker) (path : String) : Tracker where
  files := path :: t.files
  dirs := t.setCount (Path.dir path) (t.count (Path.dir path) + 1)

def forget (t : Tracker) (path : String) : Tracker where
  files := t.files.filter (· != path)
  dirs := t.setCount (Path.dir path) (t.count (Path.dir path) - 1)

/-- Carries out a wish, given how the system answers if it is asked anything. A refusal to
watch changes nothing; a refusal to stop watching is reported, but the file is forgotten. -/
def fulfil (t : Tracker) (w : Wish) (answer : Except String Unit) :
    Except String Unit × Tracker :=
  let reply := if (t.request? w).isSome then answer else .ok ()
  match w with
  | .add path =>
    if t.files.contains path then (.ok (), t)
    else
      match reply with
      | .ok () => (.ok (), t.follow path)
      | .error e => (.error e, t)
  | .remove path =>
    if t.files.contains path then (reply, t.forget path) else (.ok (), t)

/-- Carries out a wish about a path by way of a system that answers requests. -/
def handleAt {σ : Type} (serve : σ → Request → Except String Unit × σ) (t : Tracker) (s : σ)
    (w : Wish) : Except String Unit × Tracker × σ :=
  let (answer, s) := match t.request? w with
    | some r => serve s r
    | none => (.ok (), s)
  let (outcome, t) := t.fulfil w answer
  (outcome, t, s)

/-- Carries out a wish about a name. Without a path for the name nothing is asked. -/
def handle {σ : Type} (absolute : String → Except String String)
    (serve : σ → Request → Except String Unit × σ) (t : Tracker) (s : σ) (w : Wish) :
    Except String Unit × Tracker × σ :=
  match w.resolve absolute with
  | .error e => (.error e, t, s)
  | .ok w => t.handleAt serve s w

/-- The notifications that are passed on: those about followed files. -/
def passOn (t : Tracker) (notices : List Event) : List Event :=
  notices.filter fun e => t.files.contains e.path && e.op != .none

end Tracker

end TreeMachine.Watch
