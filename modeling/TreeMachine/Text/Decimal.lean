/-!
# Integers in text

Reading integers written in decimal, with the strictness that arguments and program input
are read with: an optional single sign, then digits and nothing else, and a value inside
the range asked for.
-/

namespace TreeMachine.Decimal

def digit? (c : Char) : Option Nat :=
  if '0' ≤ c ∧ c ≤ '9' then some (c.toNat - '0'.toNat) else none

/-- The value of one or more decimal digits; nothing else is a number. -/
def readNat : List Char → Option Nat
  | [] => none
  | cs => cs.foldlM (fun n c => (digit? c).map (10 * n + ·)) 0

def readInt : List Char → Option Int
  | '+' :: cs => (readNat cs).map fun n => (n : Int)
  | '-' :: cs => (readNat cs).map fun n => -(n : Int)
  | cs => (readNat cs).map fun n => (n : Int)

/-- A signed 32-bit integer in decimal; a value outside the range is refused. -/
def int32? (cs : List Char) : Option Int32 :=
  match readInt cs with
  | some v =>
    if Int32.minValue.toInt ≤ v ∧ v ≤ Int32.maxValue.toInt then some (Int32.ofInt v) else none
  | none => none

def ofInt32 (v : Int32) : String :=
  toString v.toInt

/-- A list of integers as messages show it: in brackets, separated by single spaces. -/
def bracketed (vs : List Int32) : String :=
  "[" ++ String.intercalate " " (vs.map ofInt32) ++ "]"

end TreeMachine.Decimal
