import TreeMachine.Text.Blank
import TreeMachine.Text.Decimal
import TreeMachine.Text.Quoted

/-!
# Assertions

An assertion says nothing if it holds, and otherwise what is wrong: the name of the
assertion, the values it saw, the place it stands at, and the words its user added.
-/

namespace TreeMachine.Testing

/-- A word that a user adds to an assertion. -/
inductive Word where
  | text (s : String)
  | int (n : Int)
  deriving Repr, DecidableEq

namespace Word

def shown : Word → String
  | text s => s
  | int n => toString n

def isText : Word → Bool
  | text _ => true
  | int _ => false

/-- Words next to each other, with a space between two of which none is a text. -/
def join : List Word → String
  | [] => ""
  | [w] => w.shown
  | v :: w :: rest =>
    v.shown ++ (if v.isText || w.isText then "" else " ") ++ join (w :: rest)

end Word

/-- Where an assertion stands and what its user adds to it. -/
structure Site where
  place : String
  words : List Word := []
  deriving Repr, DecidableEq

/-- The message of an assertion that does not hold. -/
def Site.complaint (s : Site) (name detail : String) : String :=
  let added := if s.words.isEmpty then "" else ": " ++ Word.join s.words
  s!"{name}: {detail} at {s.place}{added}"

/-- How values of a type are shown. -/
structure Shown (α : Type) where
  typeName : String
  text : α → String

def Shown.int32 : Shown Int32 := ⟨"int32", Decimal.ofInt32⟩

def Shown.string : Shown String := ⟨"string", id⟩

def Shown.bool : Shown Bool := ⟨"bool", fun b => if b then "true" else "false"⟩

/-- A list in brackets, separated by single spaces. -/
def Shown.list {α : Type} (sh : Shown α) (xs : List α) : String :=
  "[" ++ String.intercalate " " (xs.map sh.text) ++ "]"

/-- The result of an assertion: nothing if it holds, or the message. -/
abbrev Complaint := Option String

namespace Assert

/-- An assertion that holds if the condition does. -/
def expect (holds : Bool) (s : Site) (name detail : String) : Complaint :=
  if holds then none else some (s.complaint name detail)

/-- What is seen and what was wanted, with their type. -/
def pair {α : Type} (sh : Shown α) (got want : α) : String :=
  s!"got={sh.text got} want={sh.text want} ({sh.typeName})"

def equal {α : Type} [DecidableEq α] (sh : Shown α) (got want : α) (s : Site) : Complaint :=
  expect (got = want) s "Equal" (pair sh got want)

def notEqual {α : Type} [DecidableEq α] (sh : Shown α) (got want : α) (s : Site) : Complaint :=
  expect (got ≠ want) s "NotEqual" (pair sh got want)

/-- The first position, counted from `i`, at which two lists differ, with both elements. -/
def firstDifference {α : Type} [DecidableEq α] (i : Nat) :
    List α → List α → Option (Nat × α × α)
  | a :: as, b :: bs => if a = b then firstDifference (i + 1) as bs else some (i, a, b)
  | _, _ => none

def listEqual {α : Type} [DecidableEq α] (sh : Shown α) (got want : List α) (s : Site) :
    Complaint :=
  if got.length ≠ want.length then
    some (s.complaint "SliceEqual"
      s!"got {sh.list got} (len {got.length}), want {sh.list want} (len {want.length})")
  else
    (firstDifference 0 got want).map fun (i, a, b) =>
      s.complaint "SliceEqual"
        s!"index {i}: got {sh.text a}, want {sh.text b} (full: {sh.list got} vs {sh.list want})"

def isTrue (b : Bool) (s : Site) : Complaint :=
  expect b s "True" "condition is false"

def isFalse (b : Bool) (s : Site) : Complaint :=
  expect (!b) s "False" "condition is true"

def contains (text part : String) (s : Site) : Complaint :=
  expect (Text.contains text part) s "Contains"
    s!"{Text.quote text} does not contain {Text.quote part}"

def notContains (text part : String) (s : Site) : Complaint :=
  expect (!Text.contains text part) s "NotContains"
    s!"{Text.quote text} contains {Text.quote part}"

end Assert

/-! ### Errors -/

/-- An error that a test looks at. Errors with the same text are different if their
identities are; an error may wrap another. -/
inductive Problem where
  | plain (id : Nat) (text : String)
  | wrapping (id : Nat) (text : String) (inner : Problem)
  deriving Repr, DecidableEq

namespace Problem

def text : Problem → String
  | plain _ t | wrapping _ t _ => t

def textOf : Option Problem → String
  | some p => p.text
  | none => "<nil>"

/-- Whether an error is `target`, or wraps one that is. -/
def isOrWraps (target : Problem) : Problem → Bool
  | plain id t => plain id t = target
  | wrapping id t inner => wrapping id t inner = target || isOrWraps target inner

def finds : Option Problem → Option Problem → Bool
  | some p, some target => isOrWraps target p
  | none, none => true
  | _, _ => false

end Problem

namespace Assert

def error (p : Option Problem) (s : Site) : Complaint :=
  expect p.isSome s "Error" "expected error, got nil"

def noError (p : Option Problem) (s : Site) : Complaint :=
  expect p.isNone s "NoError" s!"unexpected error: {Problem.textOf p}"

def errorIs (p target : Option Problem) (s : Site) : Complaint :=
  expect (Problem.finds p target) s "ErrorIs"
    s!"{Problem.textOf p} is not {Problem.textOf target}"

end Assert

/-! ### Values of any type -/

/-- The types whose values may be missing. -/
inductive RefKind where
  | pointer
  | slice
  | map
  | func
  | channel
  deriving Repr, DecidableEq

/-- A value whose type an assertion finds out by itself. -/
inductive Sample where
  /-- No value and no type. -/
  | untyped
  /-- A missing value of a type. -/
  | missing (kind : RefKind)
  | pointer
  | int (n : Int32)
  | string (s : String)
  | bool (b : Bool)
  | ints (xs : List Int32)
  | strings (xs : List String)
  | array (xs : List Int32)
  /-- Integers by names. -/
  | map (entries : List (String × Int32))
  /-- A channel that holds a number of items. -/
  | channel (n : Nat)
  deriving Repr, DecidableEq

namespace Sample

def kindOf : RefKind → String
  | .pointer => "ptr"
  | .slice => "slice"
  | .map => "map"
  | .func => "func"
  | .channel => "chan"

def kind : Sample → String
  | untyped => "invalid"
  | missing k => kindOf k
  | pointer => "ptr"
  | int _ => "int32"
  | string _ => "string"
  | bool _ => "bool"
  | ints _ | strings _ => "slice"
  | array _ => "array"
  | map _ => "map"
  | channel _ => "chan"

def shown : Sample → String
  | untyped | missing _ => "<nil>(<nil>)"
  | pointer => "*int32"
  | int n => s!"int32({Decimal.ofInt32 n})"
  | string s => s!"string({s})"
  | bool b => s!"bool({Shown.bool.text b})"
  | ints xs => s!"[]int32({Decimal.bracketed xs})"
  | strings xs => s!"[]string({Shown.string.list xs})"
  | array xs => s!"[{xs.length}]int32({Decimal.bracketed xs})"
  | map entries =>
    let sorted := entries.mergeSort fun a b => !(b.1 < a.1)
    let items := sorted.map fun (k, v) => k ++ ":" ++ Decimal.ofInt32 v
    "map[string]int32(map[" ++ String.intercalate " " items ++ "])"
  | channel _ => "chan int32"

def isMissing : Sample → Bool
  | untyped | missing _ => true
  | _ => false

/-- The length of a value that has one; that of a string is in bytes. -/
def length? : Sample → Option Nat
  | missing .slice | missing .map | missing .channel => some 0
  | string s => some s.utf8ByteSize
  | ints xs | array xs => some xs.length
  | strings xs => some xs.length
  | map entries => some entries.length
  | channel n => some n
  | _ => none

end Sample

namespace Assert

def isNil (v : Sample) (s : Site) : Complaint :=
  expect v.isMissing s "Nil" s!"expected nil, got {v.shown}"

def notNil (v : Sample) (s : Site) : Complaint :=
  expect (!v.isMissing) s "NotNil" "unexpected nil"

/-- A value has a length, and it is the one that is wanted. -/
def len (v : Sample) (want : Int) (s : Site) : Complaint :=
  match v.length? with
  | some n => expect ((n : Int) = want) s "Len" s!"got len={n}, want {want}"
  | none => some (s.complaint "Len" s!"unsupported kind {v.kind}")

end Assert

end TreeMachine.Testing
