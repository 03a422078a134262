import TreeMachine.Files
import TreeMachine.Watch.Event

/-!
# Watching by looking

A poll remembers how every watched file looked the last time, and a scan reports the files
that look different now.
-/

namespace TreeMachine.Watch

/-- How a file that is there looks: the time of its last change and its size. -/
structure Look where
  modified : Int
  size : Nat
  deriving Repr, DecidableEq

/-- How a path looks in a tree of files; nothing if nothing is there. -/
def lookAt (fs : Files) (path : String) : Option Look :=
  match fs.locate path with
  | .ok (.file p content) => some { modified := fs.modified p, size := content.size }
  | .ok (.dir p) => some { modified := fs.modified p, size := 0 }
  | _ => none

/-- The operation between two looks at the same path. -/
def change (old new : Option Look) : Option Op :=
  match old, new with
  | some _, none => some .remove
  | none, some _ => some .create
  | some a, some b => if a = b then none else some .write
  | none, none => none

/-- The watched paths, each with its last look. -/
structure Poll where
  seen : List (String × Option Look) := []
  deriving Repr, DecidableEq

namespace Poll

def remove (p : Poll) (path : String) : Poll where
  seen := p.seen.filter (·.1 != path)

/-- Starts watching a path, which need not name a file yet. -/
def add (p : Poll) (look : String → Option Look) (path : String) : Poll where
  seen := (p.remove path).seen ++ [(path, look path)]

/-- Looks at every watched path and reports the changes since the last look. Only a look
that is reported takes the place of the last. -/
def scan (p : Poll) (look : String → Option Look) : List Event × Poll :=
  (p.seen.filterMap fun (path, old) => (change old (look path)).map fun op => { path, op },
    { seen := p.seen.map fun (path, old) =>
        (path, if (change old (look path)).isSome then look path else old) })

end Poll

end TreeMachine.Watch
