import TreeMachine.Document.Json
import TreeMachine.Files
import TreeMachine.Machine.Basic

/-!
# Configuration files

The settings of a run, kept in a file as a JSON object. Fields that the file does not have
keep their defaults, and fields that are not known are ignored. A file that is not there
counts as empty.
-/

namespace TreeMachine.Command

open Document (Json)

/-- The settings of a run. -/
structure Config where
  verbose : Bool := false
  debug : Bool := false
  heapSize : Int64 := 33554432
  maxCallDepth : Int64 := 100000
  lower : Bool := false
  seed : UInt64 := 0
  deriving Repr, DecidableEq

namespace Config

def fieldNames : List String :=
  ["verbose", "debug", "heap_size", "max_call_depth", "lower", "seed"]

def int64? (text : String) : Option Int64 :=
  (Json.intIn? Int64.minValue.toInt Int64.maxValue.toInt text).map Int64.ofInt

def seed? (text : String) : Option UInt64 :=
  match Decimal.readNat text.toList with
  | some n => if n < UInt64.size then some (UInt64.ofNat n) else none
  | none => none

/-- Sets the field that a key stands for. A null leaves the field as it is, and so does a
key that stands for none; a value of the wrong kind is refused. -/
def put? (c : Config) (key : String) (v : Json) : Option Config :=
  match Json.fieldName? fieldNames key, v with
  | none, _ => some c
  | some _, .null => some c
  | some "verbose", .bool b => some { c with verbose := b }
  | some "debug", .bool b => some { c with debug := b }
  | some "heap_size", .num text => (int64? text).map fun n => { c with heapSize := n }
  | some "max_call_depth", .num text => (int64? text).map fun n => { c with maxCallDepth := n }
  | some "lower", .bool b => some { c with lower := b }
  | some "seed", .num text => (seed? text).map fun n => { c with seed := n }
  | _, _ => none

/-- The settings of a JSON value, on top of the defaults. -/
def ofJson? : Json → Option Config
  | .null => some {}
  | .obj fields => fields.foldlM (fun c (key, _, v) => c.put? key v) {}
  | _ => none

/-- Settings as they are used: a missing heap size or call depth takes its default. A
negative heap size is refused. -/
def settle (c : Config) : Except Reason Config :=
  if c.heapSize < 0 then .error (.negativeHeap c.heapSize.toInt)
  else .ok { c with
    heapSize := if c.heapSize = 0 then ({} : Config).heapSize else c.heapSize
    maxCallDepth := if c.maxCallDepth ≤ 0 then ({} : Config).maxCallDepth else c.maxCallDepth }

def parse (text : String) : Except Error Config :=
  match (Json.read? text).bind ofJson? with
  | none => .error (.reason .malformedConfig)
  | some c => c.settle.mapError .reason

/-- The settings in the file at a path. Without a path, or without the file, these are the
defaults. -/
def load (fs : Files) (path : String) : Except Error Config :=
  let unread (t : String) := Error.within "failed to read config file" (.reason (.system t))
  if path.isEmpty then .ok {}
  else
    match fs.open? path with
    | .ok (some content) => parse content.toText
    | .ok none => .error (unread s!"read {path}: {Files.Trouble.isDirectory.text}")
    | .error .absent => .ok {}
    | .error t => .error (unread s!"open {path}: {t.text}")

def text (c : Config) : String :=
  let flag (b : Bool) := if b then "true" else "false"
  let fields := [("verbose", flag c.verbose), ("debug", flag c.debug),
    ("heap_size", toString c.heapSize.toInt), ("max_call_depth", toString c.maxCallDepth.toInt),
    ("lower", flag c.lower), ("seed", toString c.seed.toNat)]
  let lines := fields.map fun (name, value) => "  \"" ++ name ++ "\": " ++ value
  "\x7b\n" ++ String.intercalate ",\n" lines ++ "\n\x7d"

def save (c : Config) (fs : Files) (path : String) : Except Error Files :=
  match fs.write path (.text c.text) with
  | .ok fs => .ok fs
  | .error t =>
    .error (.within "failed to write config file" (.reason (.system s!"open {path}: {t.text}")))

end Config

end TreeMachine.Command
