/-!
# Library routines

The names a program can call without defining them. The routine that reports an index out
of bounds is called by compiled code only.
-/

namespace TreeMachine

/-- The routines of the library. -/
inductive Routine where
  | outOfBounds
  | assert
  | eof
  | getchar
  | lengthBool
  | lengthInt
  | malloc
  | parseInt
  | print
  | println
  | readln
  | unparseInt
  deriving Repr, DecidableEq

namespace Routine

def name : Routine → String
  | outOfBounds => "_outOfBounds"
  | assert => "assert"
  | eof => "eof"
  | getchar => "getchar"
  | lengthBool => "lengthBool"
  | lengthInt => "lengthInt"
  | malloc => "malloc"
  | parseInt => "parseInt"
  | print => "print"
  | println => "println"
  | readln => "readln"
  | unparseInt => "unparseInt"

def all : List Routine :=
  [outOfBounds, assert, eof, getchar, lengthBool, lengthInt, malloc, parseInt, print, println,
    readln, unparseInt]

def ofName? (name : String) : Option Routine :=
  all.find? (·.name == name)

end Routine

end TreeMachine
