import TreeMachine.Text.Decimal
import TreeMachine.Text.Quoted

/-!
# Document versions

Program documents carry a version of the form `major.minor.patch-pre+meta`. The last two
numbers and both suffixes may be missing, and a `v` may stand in front. Documents of major
version one that are not pre-releases are understood.
-/

namespace TreeMachine

/-- A version: three numbers, pre-release identifiers and build metadata. -/
structure Version where
  major : Nat
  minor : Nat := 0
  patch : Nat := 0
  pre : List String := []
  build : List String := []
  deriving Repr, DecidableEq

namespace Version

/-- Why a text is no version. -/
inductive Problem where
  /-- The text does not have the form of a version. -/
  | form
  /-- A number that does not fit 64 bits. -/
  | range (digits : String)
  /-- A numeric pre-release identifier with a leading zero. -/
  | leadingZero
  deriving Repr, DecidableEq

def Problem.message : Problem → String
  | .form => "Invalid Semantic Version"
  | .range digits =>
    s!"Error parsing version segment: strconv.ParseUint: parsing {Text.quote digits}: value out of range"
  | .leadingZero => "Version segment starts with 0"

/-- Characters of an identifier in a pre-release or in build metadata. -/
def isIdentChar (c : Char) : Bool :=
  c.isAlphanum || c == '-'

/-- The leading digits of a text, which must not be missing, and the rest. -/
def number? (cs : List Char) : Option (List Char × List Char) :=
  match cs.span Char.isDigit with
  | ([], _) => none
  | (ds, rest) => some (ds, rest)

/-- A further number after a dot, if the text goes on with a dot; without one the part is
missing. -/
def dotNumber? : List Char → Option (Option (List Char) × List Char)
  | '.' :: cs => (number? cs).map fun (ds, rest) => (some ds, rest)
  | cs => some (none, cs)

/-- Cuts dot-separated identifiers; an empty or ill-formed one makes the whole ill-formed. -/
def identifiers? (cs : List Char) : Option (List String) :=
  let parts := (String.ofList cs).splitToList (· == '.')
  if parts.all fun p => !p.isEmpty && p.toList.all isIdentChar then some parts else none

/-- The identifiers after a mark, up to a `+`; without the mark there are none. -/
def suffix? (mark : Char) : List Char → Option (List String × List Char)
  | [] => some ([], [])
  | c :: cs =>
    if c == mark then
      let (body, rest) := cs.span (· != '+')
      (identifiers? body).map fun ids => (ids, rest)
    else some ([], c :: cs)

/-- The pieces of a text that has the form of a version. -/
def pieces? (s : String) :
    Option (List Char × Option (List Char) × Option (List Char) × List String × List String) := do
  let cs := match s.toList with
    | 'v' :: cs => cs
    | cs => cs
  let (major, cs) ← number? cs
  let (minor, cs) ← dotNumber? cs
  let (patch, cs) ← dotNumber? cs
  let (pre, cs) ← suffix? '-' cs
  let (build, cs) ← suffix? '+' cs
  if cs.isEmpty then some (major, minor, patch, pre, build) else none

/-- The value of a number of a version; a missing one is zero. -/
def segment : Option (List Char) → Except Problem Nat
  | none => .ok 0
  | some ds =>
    match Decimal.readNat ds with
    | some n => if n < UInt64.size then .ok n else .error (.range (String.ofList ds))
    | none => .error .form

/-- Whether a pre-release identifier is a number with a leading zero. -/
def hasLeadingZero (id : String) : Bool :=
  id.startsWith "0" && 1 < id.length && id.all Char.isDigit

def parse (s : String) : Except Problem Version :=
  match pieces? s with
  | none => .error .form
  | some (major, minor, patch, pre, build) => do
    let major ← segment (some major)
    let minor ← segment minor
    let patch ← segment patch
    if pre.any hasLeadingZero then throw .leadingZero
    return { major, minor, patch, pre, build }

/-- The full text of a version: all three numbers, and the suffixes that are there. -/
def text (v : Version) : String :=
  let numbers := s!"{v.major}.{v.minor}.{v.patch}"
  let pre := if v.pre.isEmpty then "" else "-" ++ String.intercalate "." v.pre
  let build := if v.build.isEmpty then "" else "+" ++ String.intercalate "." v.build
  numbers ++ pre ++ build

/-- The range of document versions that can be read. -/
def constraint : String := "^1.0"

/-- The version that new documents are written in. -/
def current : String := "1.1.0"

/-- Whether documents of this version can be read. -/
def isSupported (v : Version) : Bool :=
  v.major == 1 && v.pre.isEmpty

end Version

end TreeMachine
