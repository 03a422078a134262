import TreeMachine.Text.Blank

/-!
# Types

The types that declarations carry, and their text: a base name followed by one pair of
brackets for every array layer.
-/

namespace TreeMachine.Tree

/-- A type. Arrays of several dimensions are arrays of arrays. -/
inductive Ty where
  | void
  | int
  | bool
  | array (elem : Ty)
  deriving Repr, DecidableEq, Inhabited

namespace Ty

def text : Ty → String
  | void => "void"
  | int => "int"
  | bool => "bool"
  | array elem => elem.text ++ "[]"

def textOf : Option Ty → String
  | some t => t.text
  | none => "<untyped>"

def isArray : Ty → Bool
  | array _ => true
  | _ => false

def dims : Ty → Nat
  | array elem => elem.dims + 1
  | _ => 0

def elem? : Ty → Option Ty
  | array elem => some elem
  | _ => none

def layers (base : Ty) : Nat → Ty
  | 0 => base
  | n + 1 => array (layers base n)

/-- Counts the bracket pairs at the end of a text read backwards, white space around them
left out, and gives what stands before them. -/
def stripLayers : List Char → Nat × List Char
  | ']' :: '[' :: rest =>
    let (n, base) := stripLayers rest
    (n + 1, base)
  | c :: rest => if Text.isBlank c then stripLayers rest else (0, c :: rest)
  | [] => (0, [])

/-- Reads a type. White space is allowed around the base name and around every bracket
pair; a blank text is `void`, and `void` has no arrays. -/
def parse (s : String) : Option Ty :=
  let (n, base) := stripLayers s.toList.reverse
  match String.ofList (base.reverse.dropWhile Text.isBlank) with
  | "int" => some (layers int n)
  | "bool" => some (layers bool n)
  | "void" => if n = 0 then some void else none
  | "" => if n = 0 then some void else none
  | _ => none

end Ty

end TreeMachine.Tree
