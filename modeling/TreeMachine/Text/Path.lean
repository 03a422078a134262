/-!
# File paths

Purely textual operations on slash-separated paths.
-/

namespace TreeMachine.Path

/-- Drops the slashes at the end of a path read backwards. -/
def dropSlashes (cs : List Char) : List Char :=
  cs.dropWhile (· == '/')

/-- The last element of a path. Slashes at the end do not count; a path of slashes only
is the root, and the empty path is the current directory. -/
def base (p : String) : String :=
  if p.isEmpty then "."
  else
    match dropSlashes p.toList.reverse with
    | [] => "/"
    | cs => String.ofList (cs.takeWhile (· != '/')).reverse

/-- The elements between the slashes of a path, empty ones left out. -/
def elements (p : String) : List String :=
  ((p.splitToList (· == '/')).filter fun e => !e.isEmpty)

/-- One element of a path onto the elements read so far, in reverse: `.` is nothing, and
`..` takes back the element before it. Above the root it stays at the root; in a relative
path it is kept when there is nothing to take back. -/
def enter (rooted : Bool) (seen : List String) (e : String) : List String :=
  if e == "." then seen
  else if e == ".." then
    match seen with
    | [] => if rooted then [] else [".."]
    | ".." :: _ => ".." :: seen
    | _ :: rest => rest
  else e :: seen

/-- The shortest path that names the same place: no `.`, no empty element, and `..` only
at the front of a relative path. -/
def clean (p : String) : String :=
  let rooted := p.startsWith "/"
  let kept := (elements p).foldl (enter rooted) []
  let body := String.intercalate "/" kept.reverse
  if rooted then "/" ++ body else if body.isEmpty then "." else body

def dir (p : String) : String :=
  clean (String.ofList (p.toList.reverse.dropWhile (· != '/')).reverse)

def join (root p : String) : String :=
  if p.startsWith "/" then clean p else clean (root ++ "/" ++ p)

/-- A path and all the paths above it, the shortest first. -/
def withAbove (p : String) : List String :=
  let root := if p.startsWith "/" then "/" else ""
  let elements := elements p
  (List.range elements.length).map fun n =>
    root ++ String.intercalate "/" (elements.take (n + 1))

end TreeMachine.Path
