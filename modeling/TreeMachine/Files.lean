import TreeMachine.Text.Path
import TreeMachine.Text.Utf8

/-!
# A tree of files

A tree of directories and files, seen from a working directory. Paths are followed
element by element, so that a path through something that is no directory, or through
something that is not there, fails for the reason that it meets first.
-/

namespace TreeMachine

/-- What is in a file. -/
inductive Content where
  | text (s : String)
  /-- Bytes that need not be text. -/
  | bytes (bs : List UInt8)
  deriving Repr, DecidableEq

namespace Content

def toText : Content → String
  | text s => s
  | bytes bs => Utf8.text bs

def toBytes : Content → List UInt8
  | text s => Utf8.bytes s
  | bytes bs => bs

def size : Content → Nat
  | text s => s.utf8ByteSize
  | bytes bs => bs.length

end Content

/-- A file or a directory. -/
structure Entry where
  /-- What it is known by, whatever path it is moved to. -/
  id : Nat := 0
  /-- What is in a file; a directory has no content. -/
  content : Option Content := none
  /-- The time of the last change. -/
  modified : Int := 0
  deriving Repr, DecidableEq, Inhabited

/-- Files and directories. -/
structure Files where
  /-- What is there, by its clean path; the working directory always is. -/
  entries : List (String × Entry) := [(".", {})]
  /-- The identity of the next entry. -/
  nextId : Nat := 1
  /-- How many changes have taken their time from the clock. -/
  ticks : Nat := 0
  deriving Repr, Inhabited

namespace Files

/-- Why a path cannot be used. -/
inductive Trouble where
  | absent
  | notDirectory
  | isDirectory
  deriving Repr, DecidableEq

def Trouble.text : Trouble → String
  | .absent => "no such file or directory"
  | .notDirectory => "not a directory"
  | .isDirectory => "is a directory"

/-- What is at the end of a path. -/
inductive Place where
  | dir (path : String)
  | file (path : String) (content : Content)
  /-- Nothing, in a directory that is there. -/
  | vacant (path : String)
  deriving Repr, DecidableEq

def entry? (fs : Files) (path : String) : Option Entry :=
  fs.entries.lookup path

def id? (fs : Files) (path : String) : Option Nat :=
  (fs.entry? path).map (·.id)

def contents (fs : Files) : List (String × Content) :=
  fs.entries.filterMap fun (path, e) => e.content.map (path, ·)

def content? (fs : Files) (path : String) : Option Content :=
  (fs.entry? path).bind (·.content)

/-- The files that are not in an earlier tree with the same bytes. -/
def changesSince (fs before : Files) : List (String × Content) :=
  fs.contents.filter fun (path, content) =>
    (before.content? path).map (·.toBytes) != some content.toBytes

/-- The time of the last change of what is at a clean path. -/
def modified (fs : Files) (path : String) : Int :=
  (fs.entry? path).elim 0 (·.modified)

/-- Whether a clean path is the directory `dir` or lies below it. -/
def isWithin (dir path : String) : Bool :=
  path == dir || path.startsWith (dir ++ "/")

/-- Whether a clean path is the root or leads up from the working directory: these are
directories without being entries. -/
def isOutside (path : String) : Bool :=
  path == "/" || (Path.elements path).all (· == "..")

/-- What a clean path names in a directory that is there. -/
def look (fs : Files) (path : String) : Place :=
  match fs.entry? path with
  | some { content := some content, .. } => .file path content
  | some { content := none, .. } => .dir path
  | none => if isOutside path then .dir path else .vacant path

def descend (fs : Files) (at? : Place) (element : String) : Except Trouble Place :=
  match at? with
  | .file _ _ => .error .notDirectory
  | .vacant _ => .error .absent
  | .dir path =>
    if element.isEmpty || element == "." then .ok (.dir path)
    else .ok (fs.look (Path.clean (path ++ "/" ++ element)))

/-- Follows the elements of a path; an empty one asks for a directory. -/
def follow (fs : Files) (start : Place) (elements : List String) : Except Trouble Place :=
  elements.foldlM (descend fs) start

def root (path : String) : Place :=
  .dir (if path.startsWith "/" then "/" else ".")

def locate (fs : Files) (path : String) : Except Trouble Place :=
  if path.isEmpty then .error .absent
  else fs.follow (root path) (path.splitToList (· == '/'))

def has (fs : Files) (path : String) : Bool :=
  match fs.locate path with
  | .ok (.dir _) | .ok (.file _ _) => true
  | _ => false

/-- Opens the file at a path. A directory can be opened, but has no content. -/
def open? (fs : Files) (path : String) : Except Trouble (Option Content) :=
  match fs.locate path with
  | .ok (.file _ content) => .ok (some content)
  | .ok (.dir _) => .ok none
  | .ok (.vacant _) => .error .absent
  | .error t => .error t

/-! ### Changes -/

/-- Drops the file or the empty directory with a clean path. -/
def erase (fs : Files) (path : String) : Files :=
  { fs with entries := fs.entries.filter (·.1 != path) }

/-- Puts something new at a clean path, a file if there is a content. What was there is
gone. -/
def put (fs : Files) (path : String) (content : Option Content) (modified : Int) : Files where
  entries := (path, { id := fs.nextId, content, modified }) :: (fs.erase path).entries
  nextId := fs.nextId + 1
  ticks := fs.ticks

/-- Makes a directory and those above it, as far as nothing is there. -/
def makeDirs (fs : Files) (path : String) : Files :=
  (Path.withAbove path).foldl (fun fs p =>
    match fs.look p with
    | .vacant p => fs.put p none 0
    | _ => fs) fs

/-- The tree with some directories, some files with their texts, and all the directories
above them. -/
def ofTexts (dirs : List String) (texts : List (String × String)) : Files :=
  texts.foldl (fun fs (path, text) => (fs.makeDirs (Path.dir path)).put path (some (.text text)) 0)
    (dirs.foldl makeDirs {})

/-- Changes what is at a clean path, if anything is. -/
def update (fs : Files) (path : String) (f : Entry → Entry) : Files :=
  { fs with entries := fs.entries.map fun (p, e) => (p, if p == path then f e else e) }

def stamp (fs : Files) (path : String) (modified : Int) : Files :=
  fs.update path fun e => { e with modified }

/-- Moves a file or a directory, and all that is in it, to another clean path; what was
there is gone. The times stay. -/
def rename (fs : Files) (source dest : String) : Files :=
  let moved (path : String) : String :=
    if isWithin source path then dest ++ String.ofList (path.toList.drop source.length) else path
  { fs with entries := (fs.erase dest).entries.map fun (p, e) => (moved p, e) }

/-- The time of a change that is made now: later than any time that a change was given,
and different every time. -/
def now (fs : Files) : Int :=
  1 <<< 62 + fs.ticks

/-- Lets a moment pass, so that the next change that takes its time from the clock differs
from all before it. -/
def tick (fs : Files) : Files :=
  { fs with ticks := fs.ticks + 1 }

/-- Sets the content of the file with a clean path; the file is made if it is not there,
which changes its directory. -/
def fill (fs : Files) (path : String) (content : Content) : Files :=
  match fs.entry? path with
  | some _ => (fs.update path fun e => { e with content, modified := fs.now }).tick
  | none => ((fs.put path content fs.now).stamp (Path.dir path) fs.now).tick

/-- The path of the file that a write to `path` would make or replace. -/
def target (fs : Files) (path : String) : Except Trouble String :=
  let elements := path.splitToList (· == '/')
  let kept := (elements.reverse.dropWhile String.isEmpty).reverse
  if path.isEmpty then .error .absent
  else
    match fs.follow (root path) kept.dropLast with
    | .error t => .error t
    | .ok (.file _ _) => .error .notDirectory
    | .ok (.vacant _) => .error .absent
    | .ok (.dir dir) =>
      if kept.length < elements.length then .error .isDirectory
      else
        match fs.descend (.dir dir) (kept.getLastD "") with
        | .ok (.file p _) | .ok (.vacant p) => .ok p
        | _ => .error .isDirectory

def write (fs : Files) (path : String) (content : Content) : Except Trouble Files := do
  return fs.fill (← fs.target path) content

end Files

end TreeMachine
