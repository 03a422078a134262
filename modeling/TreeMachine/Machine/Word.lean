import TreeMachine.Fault
import TreeMachine.Structured.Basic

/-!
# Arithmetic on words

The operators on 32-bit words. Sums, differences and products wrap; quotients are cut
toward zero; shift amounts use their low five bits; comparisons yield one or zero.
-/

namespace TreeMachine.Word

open Structured (BinOp UnOp)

def ofBool (b : Bool) : Int32 :=
  if b then 1 else 0

/-- Applies a binary operator. Division by zero fails, and so does an operator outside the
defined ones. -/
def binop (op : BinOp) (l r : Int32) : Except Fault Int32 :=
  match op with
  | .add => .ok (l + r)
  | .sub => .ok (l - r)
  | .mul => .ok (l * r)
  | .div => if r = 0 then .error (.divisionByZero "div") else .ok (l / r)
  | .mod => if r = 0 then .error (.divisionByZero "mod") else .ok (l % r)
  | .and => .ok (l &&& r)
  | .or => .ok (l ||| r)
  | .xor => .ok (l ^^^ r)
  | .shl => .ok (l <<< (r &&& 31))
  | .shr => .ok (l >>> (r &&& 31))
  | .ushr => .ok (l.toUInt32 >>> (r.toUInt32 &&& 31)).toInt32
  | .eq => .ok (ofBool (l == r))
  | .ne => .ok (ofBool (l != r))
  | .lt => .ok (ofBool (l < r))
  | .le => .ok (ofBool (l ≤ r))
  | .gt => .ok (ofBool (r < l))
  | .ge => .ok (ofBool (r ≤ l))
  | .ult => .ok (ofBool (l.toUInt32 < r.toUInt32))
  | .undefined _ => .error (.operandTag "binop" op.text)

/-- Applies a unary operator. Everything but negation is the bitwise complement. -/
def unop (op : UnOp) (v : Int32) : Int32 :=
  match op with
  | .neg => -v
  | _ => ~~~v

end TreeMachine.Word
