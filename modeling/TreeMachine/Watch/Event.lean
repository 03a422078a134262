/-!
# Changes of files

A change is a set of operations on one file.
-/

namespace TreeMachine.Watch

/-- A set of operations, one bit each. -/
structure Op where
  bits : UInt8
  deriving Repr, DecidableEq

namespace Op

def none : Op := ⟨0⟩
def create : Op := ⟨1⟩
def write : Op := ⟨2⟩
def remove : Op := ⟨4⟩
def rename : Op := ⟨8⟩
def chmod : Op := ⟨16⟩

def named : List (Op × String) :=
  [(create, "create"), (write, "write"), (remove, "remove"), (rename, "rename"),
    (chmod, "chmod")]

/-- Whether two sets have an operation in common. -/
def meets (a b : Op) : Bool :=
  a.bits &&& b.bits != 0

/-- The words of the operations in a set, in a fixed order. -/
def text (op : Op) : String :=
  match (named.filter fun (bit, _) => op.meets bit).map Prod.snd with
  | [] => "none"
  | words => String.intercalate "|" words

end Op

/-- A change of a file. -/
structure Event where
  path : String
  op : Op
  deriving Repr, DecidableEq

end TreeMachine.Watch
