import TreeMachine.Fault

/-!
# Operands

What a node leaves for the node above it. Besides plain values an operand can remember
where it came from, because a store goes back to that place: a register, a memory cell or
a name. The operands of all active calls share one stack.
-/

namespace TreeMachine

/-- One operand. -/
inductive Operand where
  /-- A computed word. -/
  | value (v : Int32)
  /-- A word read from an address. -/
  | mem (addr v : Int32)
  /-- A register, with its value if it had one when it was read. -/
  | reg (name : String) (v : Option Int32)
  /-- A name, with its address; a library routine has none. -/
  | symbol (name : String) (addr : Option Nat)
  deriving Repr, DecidableEq

/-- The word for the kind of an operand in messages. -/
def Operand.kind : Operand → String
  | .value _ => "value"
  | .mem _ _ => "memory"
  | .reg _ _ => "register"
  | .symbol _ _ => "symbol"

/-- A stack of operands, the top first, that knows its height. -/
structure Operands where
  items : List Operand := []
  height : Nat := 0
  height_eq : height = items.length := by rfl

namespace Operands

def empty : Operands := {}

instance : Inhabited Operands := ⟨empty⟩

def push (s : Operands) (o : Operand) : Operands where
  items := o :: s.items
  height := s.height + 1
  height_eq := by simp [s.height_eq]

/-- Takes operands away until at most `n` are left. -/
def truncate (s : Operands) (n : Nat) : Operands :=
  if h : n < s.height then
    { items := s.items.drop (s.height - n)
      height := n
      height_eq := by simp [← s.height_eq]; omega }
  else s

def pop (s : Operands) (operation : String) : Except Fault (Operand × Operands) :=
  match h : s.items with
  | [] => .error (.operandTag operation "empty stack")
  | o :: rest =>
    .ok (o, { items := rest, height := s.height - 1, height_eq := by simp [s.height_eq, h] })

def below (s : Operands) (k : Nat) : Operands where
  items := s.items.drop k
  height := s.height - k
  height_eq := by simp [s.height_eq]

/-- The top `n` operands, the deepest first, and the stack without them. -/
def popMany (s : Operands) (operation : String) (n : Nat) :
    Except Fault (List Operand × Operands) :=
  if s.height < n then .error (.operandTag operation s!"{s.height} entries, want {n}")
  else .ok ((s.items.take n).reverse, s.below n)

end Operands

/-- The registers of one call, in the order they were first set. -/
structure Registers where
  entries : List (String × Int32) := []
  deriving Repr, DecidableEq, Inhabited

namespace Registers

def get? (r : Registers) (name : String) : Option Int32 :=
  r.entries.lookup name

def put (name : String) (v : Int32) : List (String × Int32) → List (String × Int32)
  | [] => [(name, v)]
  | (n, w) :: rest => if n == name then (n, v) :: rest else (n, w) :: put name v rest

def set (r : Registers) (name : String) (v : Int32) : Registers where
  entries := put name v r.entries

/-- Sets the registers `name i`, `name (i + 1)`, … to values. -/
def setAll (r : Registers) (name : Nat → String) : Nat → List Int32 → Registers
  | _, [] => r
  | i, v :: vs => (r.set (name i) v).setAll name (i + 1) vs

end Registers

end TreeMachine
