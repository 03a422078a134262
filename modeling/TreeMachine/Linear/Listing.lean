import TreeMachine.Linear.Basic
import TreeMachine.Structured.Printer
import TreeMachine.Text.Blank

/-!
# Listings of linear code

A listing shows one node a line with its address, and before it the labels bound to that
address in the order of their names. Two layouts are compared through the same texts.
-/

namespace TreeMachine.Linear

namespace Program

/-- The labels bound to an address, in the order of their names. -/
def labelsAt (p : Program) (addr : Nat) : List String :=
  (p.labels.toList.filter (·.2 == addr)).map (·.1)

/-- The line of the node at an address, if there is one. -/
def nodeLine? (p : Program) (addr : Nat) : Option String :=
  p.code[addr]?.map fun n => Text.padLeft (toString addr) 6 ++ "  " ++ n.operation ++ "\n"

/-- The lines of the listing, up to the address after the last node. -/
def listingLines (p : Program) : List String :=
  (List.range (p.code.size + 1)).flatMap fun addr =>
    (p.labelsAt addr).map (· ++ ":\n") ++ (p.nodeLine? addr).toList

def listing (p : Program) : String :=
  String.join p.listingLines

/-- The first address at which the texts of two lists of nodes differ, with both texts. -/
def firstDifference (addr : Nat) :
    List Structured.Node → List Structured.Node → Option (Nat × String × String)
  | n :: ns, m :: ms =>
    if n.text = m.text then firstDifference (addr + 1) ns ms else some (addr, n.text, m.text)
  | _, _ => none

/-- Checks that two layouts bind the same labels, have the same function ranges and show
the same node at every address. -/
def same (p q : Program) : Except Error Unit :=
  if p.labels.toList ≠ q.labels.toList then .error (.reason .labelsDiffer)
  else if p.funcs ≠ q.funcs then .error (.reason .rangesDiffer)
  else if p.code.size ≠ q.code.size then
    .error (.reason (.lengthsDiffer p.code.size q.code.size))
  else
    match firstDifference 0 p.code.toList q.code.toList with
    | some (addr, left, right) => .error (.reason (.codeDiffers addr left right))
    | none => .ok ()

end Program

end TreeMachine.Linear
