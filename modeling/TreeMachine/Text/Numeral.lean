/-!
# Numerals in several bases

Unsigned numerals as options take them: decimal digits, or a base prefix `0b`, `0o` or
`0x` and digits of that base, or a leading zero for octal. Underscores may separate digits
and stand between the prefix and the first digit.
-/

namespace TreeMachine.Numeral

/-- Why a text is no numeral of the range asked for. -/
inductive Problem where
  | form
  | range
  deriving Repr, DecidableEq

def Problem.message : Problem → String
  | .form => "parse error"
  | .range => "value out of range"

/-- The value of a digit in the bases up to thirty-six. -/
def digit? (c : Char) : Option Nat :=
  if '0' ≤ c ∧ c ≤ '9' then some (c.toNat - 48)
  else if 'a' ≤ c ∧ c ≤ 'z' then some (c.toNat - 87)
  else if 'A' ≤ c ∧ c ≤ 'Z' then some (c.toNat - 55)
  else none

def splitBase : List Char → Nat × List Char
  | '0' :: b :: c :: cs =>
    match b.toLower with
    | 'b' => (2, c :: cs)
    | 'o' => (8, c :: cs)
    | 'x' => (16, c :: cs)
    | _ => (8, b :: c :: cs)
  | '0' :: cs => (8, cs)
  | cs => (10, cs)

/-- Reads digits of a base onto the number before them, skipping underscores. A number that
leaves the range is refused before anything after it is looked at. -/
def digits (base bound : Nat) (n : Nat) : List Char → Except Problem Nat
  | [] => .ok n
  | '_' :: cs => digits base bound n cs
  | c :: cs =>
    match digit? c with
    | none => .error .form
    | some d =>
      if base ≤ d then .error .form
      else if bound ≤ n * base + d then .error .range
      else digits base bound (n * base + d) cs

/-- What stands before the next character of a numeral. -/
inductive Before where
  | start
  | digit
  | underscore
  | other
  deriving DecidableEq

/-- Whether every underscore stands between digits; `isDigit` says which characters are. -/
def separates (isDigit : Char → Bool) (before : Before) : List Char → Bool
  | [] => before != .underscore
  | '_' :: cs => before == .digit && separates isDigit .underscore cs
  | c :: cs =>
    if isDigit c then separates isDigit .digit cs
    else before != .underscore && separates isDigit .other cs

/-- Whether the underscores of a numeral stand where they may. A base prefix counts as a
digit. -/
def underscoresFit : List Char → Bool
  | '0' :: b :: cs =>
    match b.toLower with
    | 'b' | 'o' => separates Char.isDigit .digit cs
    | 'x' => separates (fun c => c.isDigit || ('a' ≤ c.toLower && c.toLower ≤ 'f')) .digit cs
    | _ => separates Char.isDigit .start ('0' :: b :: cs)
  | cs => separates Char.isDigit .start cs

def readNat (bound : Nat) (cs : List Char) : Except Problem Nat :=
  if cs.isEmpty then .error .form
  else do
    let (base, ds) := splitBase cs
    let n ← digits base bound 0 ds
    if cs.contains '_' && !underscoresFit cs then .error .form else .ok n

def uint64 (s : String) : Except Problem UInt64 :=
  (readNat UInt64.size s.toList).map UInt64.ofNat

/-- A 64-bit signed numeral: an optional sign in front of an unsigned one. -/
def int64 (s : String) : Except Problem Int64 :=
  let positive (cs : List Char) : Except Problem Int64 := do
    let n ← readNat UInt64.size cs
    if n ≤ Int64.maxValue.toInt then .ok (Int64.ofNat n) else .error .range
  match s.toList with
  | '+' :: cs => positive cs
  | '-' :: cs => do
    let n ← readNat UInt64.size cs
    if Int64.minValue.toInt ≤ -n then .ok (Int64.ofInt (-n)) else .error .range
  | cs => positive cs

end TreeMachine.Numeral
