import TreeMachine.Watch.Watcher

/-!
# A disk that notifies

A tree of files together with the directories and files that are watched in it. A watch
follows what it is on by its identity, but tells about it by the path it was asked for.
Every edit of the tree sends signals, and those that reach a watch become notifications.
-/

namespace TreeMachine.Watch

/-- A watch. -/
structure Mark where
  /-- The identity of what is watched; the directories that are no entries have none. -/
  id : Option Nat
  /-- The path it was asked for by. -/
  path : String
  deriving Repr, DecidableEq

/-- A tree of files under watch. -/
structure Disk where
  files : Files := {}
  marks : List Mark := []
  closed : Bool := false

/-- What an edit tells to those who watch. -/
inductive Signal where
  /-- Something happened to the entry `name` of a directory. -/
  | inside (dir : Option Nat) (name : String) (op : Op)
  /-- Something happened to a file or a directory itself. -/
  | self (id : Option Nat) (op : Op)
  /-- It got another path. -/
  | moved (id : Option Nat)
  /-- It is no more. -/
  | gone (id : Option Nat)
  deriving Repr, DecidableEq

/-- Edits of a tree of files. -/
inductive Edit where
  /-- Makes an empty file. -/
  | create (path : String)
  | append (path text : String)
  /-- Moves a finished file into place from elsewhere. -/
  | replace (path text : String) (modified : Int)
  /-- Sets the time. -/
  | touch (path : String) (modified : Int)
  /-- Sets the mode. -/
  | chmod (path : String)
  /-- Removes a file or an empty directory. -/
  | delete (path : String)
  /-- Moves a file or a directory. -/
  | rename (source dest : String)
  deriving Repr, DecidableEq

namespace Edit

/-- Signals of an operation on what is at a path: first in its directory, then on itself. -/
def both (fs : Files) (path : String) (op : Op) : List Signal :=
  [.inside (fs.id? (Path.dir path)) (Path.base path) op, .self (fs.id? path) op]

/-- Signals of the end of what is at a path, with what is told between the loss of its name
and its end. A file loses a name, which is a change of it; a directory has only one. -/
def ending (fs : Files) (path : String) (between : List Signal) : List Signal :=
  match fs.entry? path with
  | none => between
  | some e =>
    (if e.content.isSome then [.self (some e.id) .chmod] else []) ++ between ++ [.gone (some e.id)]

def signals (fs : Files) : Edit → List Signal
  | create path =>
    [.inside (fs.id? (Path.dir path)) (Path.base path) .create]
  | append path _ => both fs path .write
  | replace path _ _ =>
    .inside (fs.id? (Path.dir path)) (Path.base path) .create :: ending fs path []
  | touch path _ => both fs path .chmod
  | chmod path => both fs path .chmod
  | delete path =>
    ending fs path [.inside (fs.id? (Path.dir path)) (Path.base path) .remove]
  | rename source dest =>
    if source == dest then []
    else
      [.inside (fs.id? (Path.dir source)) (Path.base source) .rename,
        .inside (fs.id? (Path.dir dest)) (Path.base dest) .create] ++
      ending fs dest [.moved (fs.id? source)]

/-- Carries out an edit. A change of what is in a directory is a change of the directory. -/
def apply (fs : Files) : Edit → Files
  | create path => fs.fill path (.text "")
  | append path text =>
    fs.fill path (.text ((fs.content? path).elim "" (·.toText) ++ text))
  | replace path text modified =>
    ((fs.put path (some (.text text)) modified).stamp (Path.dir path) fs.now).tick
  | touch path modified => fs.stamp path modified
  | chmod _ => fs
  | delete path => ((fs.erase path).stamp (Path.dir path) fs.now).tick
  | rename source dest =>
    if source == dest then fs
    else
      (((fs.stamp (Path.dir source) fs.now).stamp (Path.dir dest) fs.now).rename source dest).tick

end Edit

namespace Disk

def mark? (d : Disk) (id : Option Nat) : Option Mark :=
  if id.isSome then d.marks.find? (·.id == id) else none

def unmark (d : Disk) (m : Mark) : Disk :=
  { d with marks := d.marks.filter (· != m) }

/-- The notification that a signal becomes. What was moved or is gone is watched no more;
that it is gone is told only if the watch on its directory does not tell it. -/
def signal (d : Disk) : Signal → List Event × Disk
  | .inside dir name op =>
    ((d.mark? dir).toList.map fun m => ⟨Path.join m.path name, op⟩, d)
  | .self id op => ((d.mark? id).toList.map fun m => ⟨m.path, op⟩, d)
  | .moved id =>
    match d.mark? id with
    | none => ([], d)
    | some m => ([⟨m.path, .rename⟩], d.unmark m)
  | .gone id =>
    match d.mark? id with
    | none => ([], d)
    | some m =>
      let d := d.unmark m
      let told := d.marks.any (·.path == Path.dir m.path)
      (if told then [] else [⟨m.path, .remove⟩], d)

/-- The notifications that signals become, one after the other. -/
def signalAll (d : Disk) : List Signal → List Event × Disk
  | [] => ([], d)
  | s :: rest =>
    let (events, d) := d.signal s
    let (more, d) := d.signalAll rest
    (events ++ more, d)

/-- Carries out an edit and gives the notifications. -/
def edit (d : Disk) (e : Edit) : List Event × Disk :=
  let (events, d') := d.signalAll (e.signals d.files)
  (events, { d' with files := e.apply d.files })

/-- Starts a watch. What is watched already keeps the watch it has. -/
def watch (d : Disk) (path place : String) : Disk :=
  let id := d.files.id? place
  if (d.mark? id).isSome then d else { d with marks := { id, path } :: d.marks }

/-- How the system answers a request to watch a directory or to stop. -/
def serve (d : Disk) : Request → Except String Unit × Disk
  | .watch dir =>
    if d.closed then (.error "fsnotify: watcher already closed", d)
    else
      match d.files.locate dir with
      | .ok (.dir place) | .ok (.file place _) => (.ok (), d.watch dir place)
      | .ok (.vacant _) => (.error Files.Trouble.absent.text, d)
      | .error t => (.error t.text, d)
  | .unwatch dir =>
    if d.closed then (.ok (), d)
    else
      match d.marks.find? (·.path == dir) with
      | some m => (.ok (), d.unmark m)
      | none => (.error s!"fsnotify: can't remove non-existent watch: {dir}", d)

def close (d : Disk) : Disk :=
  { d with marks := [], closed := true }

/-- A disk as the surroundings of a watcher in a working directory. -/
def system (cwd : String) : System Disk where
  absolute _ name := .ok (Path.join cwd name)
  serve := serve
  look d := lookAt d.files

end Disk

/-- Carries out an edit of the disk and reports the changes. -/
def Watcher.edit (d : Disk) (e : Edit) (w : Watcher) : List Event × Disk × Watcher :=
  let (notices, d) := d.edit e
  let (events, w) := w.observe (lookAt d.files) notices
  (events, d, w)

end TreeMachine.Watch
