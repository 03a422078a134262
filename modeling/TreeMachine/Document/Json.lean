import TreeMachine.Text.Decimal
import TreeMachine.Text.Utf8

/-!
# JSON text

Reading JSON into a value that keeps what a document's meaning can depend on: the fields
of an object in their order with repetitions, the text of a number, and for fields that are
called `value` the text of that value as it was written.

The reader is strict about the grammar. Containers may be nested up to a fixed depth. A
text can be read for its first value only, or as a whole.
-/

namespace TreeMachine.Document

/-- A JSON value. A field of an object is its name, the text of its value where that is kept,
and the value. -/
inductive Json where
  | null
  | bool (b : Bool)
  | num (text : String)
  | str (s : String)
  | arr (items : List Json)
  | obj (fields : List (String × String × Json))
  deriving Repr, Inhabited

namespace Json

/-- Where the reader stands: the text ahead, and how many characters are behind. -/
structure Cursor where
  rest : List Char
  pos : Nat

def isSpace (c : Char) : Bool :=
  c == ' ' || c == '\t' || c == '\r' || c == '\n'

def skip : List Char → Nat → Cursor
  | [], pos => ⟨[], pos⟩
  | c :: cs, pos => if isSpace c then skip cs (pos + 1) else ⟨c :: cs, pos⟩

/-! ### Strings -/

/-- A piece of a string: a character, or a 16-bit unit written as an escape. -/
inductive Piece where
  | char (c : Char)
  | unit (n : Nat)

def hexDigit? (c : Char) : Option Nat :=
  if '0' ≤ c ∧ c ≤ '9' then some (c.toNat - 48)
  else if 'a' ≤ c ∧ c ≤ 'f' then some (c.toNat - 87)
  else if 'A' ≤ c ∧ c ≤ 'F' then some (c.toNat - 55)
  else none

def hex4? (a b c d : Char) : Option Nat := do
  return (((← hexDigit? a) * 16 + (← hexDigit? b)) * 16 + (← hexDigit? c)) * 16 + (← hexDigit? d)

def escape? : Char → Option Char
  | '\x22' => some '\x22'
  | '\\' => some '\\'
  | '/' => some '/'
  | 'b' => some '\x08'
  | 'f' => some '\x0c'
  | 'n' => some '\n'
  | 'r' => some '\r'
  | 't' => some '\t'
  | _ => none

/-- The pieces of a string after its opening quote, up to the closing one. Control
characters must be escaped. -/
def pieces? : List Char → Nat → Option (List Piece × Cursor)
  | [], _ => none
  | '\x22' :: cs, pos => some ([], ⟨cs, pos + 1⟩)
  | '\\' :: 'u' :: a :: b :: c :: d :: cs, pos => do
    let n ← hex4? a b c d
    let (ps, cur) ← pieces? cs (pos + 6)
    return (.unit n :: ps, cur)
  | '\\' :: c :: cs, pos => do
    let e ← escape? c
    let (ps, cur) ← pieces? cs (pos + 2)
    return (.char e :: ps, cur)
  | c :: cs, pos =>
    if c.toNat < 0x20 || c == '\\' then none
    else do
      let (ps, cur) ← pieces? cs (pos + 1)
      return (.char c :: ps, cur)

/-- The character of a unit on its own: half of a surrogate pair is replaced. -/
def ofUnit (n : Nat) : Char :=
  if 0xD800 ≤ n ∧ n < 0xE000 then Utf8.replacement else Char.ofNat n

/-- The characters of pieces. Two units that form a surrogate pair are one character. -/
def assemble : List Piece → List Char
  | [] => []
  | .char c :: ps => c :: assemble ps
  | .unit n :: .unit m :: ps =>
    if 0xD800 ≤ n ∧ n < 0xDC00 ∧ 0xDC00 ≤ m ∧ m < 0xE000 then
      Char.ofNat (0x10000 + (n - 0xD800) * 0x400 + (m - 0xDC00)) :: assemble ps
    else ofUnit n :: assemble (.unit m :: ps)
  | .unit n :: ps => ofUnit n :: assemble ps

def string? (cs : List Char) (pos : Nat) : Option (String × Cursor) := do
  let (ps, cur) ← pieces? cs pos
  return (String.ofList (assemble ps), cur)

/-! ### Numbers -/

def digits? (cs : List Char) : Option (List Char × List Char) :=
  match cs.span Char.isDigit with
  | ([], _) => none
  | r => some r

/-- The integer part: zero, or digits that do not start with zero. -/
def integer? : List Char → Option (List Char × List Char)
  | '0' :: cs => some (['0'], cs)
  | cs => digits? cs

def fraction? : List Char → Option (List Char × List Char)
  | '.' :: cs => (digits? cs).map fun (ds, rest) => ('.' :: ds, rest)
  | cs => some ([], cs)

def exponent? : List Char → Option (List Char × List Char)
  | [] => some ([], [])
  | e :: cs =>
    if e == 'e' || e == 'E' then
      match cs with
      | '+' :: cs => (digits? cs).map fun (ds, rest) => (e :: '+' :: ds, rest)
      | '-' :: cs => (digits? cs).map fun (ds, rest) => (e :: '-' :: ds, rest)
      | cs => (digits? cs).map fun (ds, rest) => (e :: ds, rest)
    else some ([], e :: cs)

def number? (cs : List Char) : Option (List Char × List Char) := do
  let (sign, cs) := match cs with
    | '-' :: cs => (['-'], cs)
    | cs => ([], cs)
  let (whole, cs) ← integer? cs
  let (frac, cs) ← fraction? cs
  let (exp, cs) ← exponent? cs
  return (sign ++ whole ++ frac ++ exp, cs)

/-! ### Names -/

/-- A character with the case distinction removed. The long s and the Kelvin sign count as
the letters they are forms of. -/
def foldChar (c : Char) : Char :=
  if c == '\u017f' then 'S' else if c == '\u212a' then 'K' else c.toUpper

/-- The name that a key stands for: the name itself, or one that differs in case only. -/
def fieldName? (names : List String) (key : String) : Option String :=
  if names.contains key then some key
  else names.find? fun n => n.toList.map foldChar == key.toList.map foldChar

def keepsText (key : String) : Bool :=
  (fieldName? ["value"] key).isSome

/-! ### Values -/

def maxDepth : Nat := 10000

mutual

/-- Reads a value. Every call in a chain of calls, or the call above it, takes a character,
so fuel of twice the length of the text suffices. -/
def value? : Nat → Nat → Cursor → Option (Json × Cursor)
  | 0, _, _ => none
  | fuel + 1, depth, ⟨rest, pos⟩ =>
    match rest with
    | '{' :: cs =>
      if depth = 0 then none
      else
        match skip cs (pos + 1) with
        | ⟨'}' :: cs, pos⟩ => some (.obj [], ⟨cs, pos + 1⟩)
        | cur => do
          let (fs, cur) ← fields? fuel (depth - 1) cur
          return (.obj fs, cur)
    | '[' :: cs =>
      if depth = 0 then none
      else
        match skip cs (pos + 1) with
        | ⟨']' :: cs, pos⟩ => some (.arr [], ⟨cs, pos + 1⟩)
        | cur => do
          let (xs, cur) ← items? fuel (depth - 1) cur
          return (.arr xs, cur)
    | '\x22' :: cs => do
      let (s, cur) ← string? cs (pos + 1)
      return (.str s, cur)
    | 't' :: 'r' :: 'u' :: 'e' :: cs => some (.bool true, ⟨cs, pos + 4⟩)
    | 'f' :: 'a' :: 'l' :: 's' :: 'e' :: cs => some (.bool false, ⟨cs, pos + 5⟩)
    | 'n' :: 'u' :: 'l' :: 'l' :: cs => some (.null, ⟨cs, pos + 4⟩)
    | cs => do
      let (text, cs) ← number? cs
      return (.num (String.ofList text), ⟨cs, pos + text.length⟩)

/-- Reads the items of an array, from an item to the closing bracket. -/
def items? : Nat → Nat → Cursor → Option (List Json × Cursor)
  | 0, _, _ => none
  | fuel + 1, depth, cur => do
    let (x, ⟨rest, pos⟩) ← value? fuel depth cur
    match skip rest pos with
    | ⟨']' :: cs, pos⟩ => return ([x], ⟨cs, pos + 1⟩)
    | ⟨',' :: cs, pos⟩ =>
      let (xs, cur) ← items? fuel depth (skip cs (pos + 1))
      return (x :: xs, cur)
    | _ => none

/-- Reads the fields of an object, from a name to the closing brace. -/
def fields? : Nat → Nat → Cursor → Option (List (String × String × Json) × Cursor)
  | 0, _, _ => none
  | fuel + 1, depth, ⟨rest, pos⟩ =>
    match rest with
    | '\x22' :: cs => do
      let (key, ⟨cs, pos⟩) ← string? cs (pos + 1)
      match skip cs pos with
      | ⟨':' :: cs, pos⟩ =>
        let start := skip cs (pos + 1)
        let (v, ⟨cs, pos⟩) ← value? fuel depth start
        let text :=
          if keepsText key then String.ofList (start.rest.take (pos - start.pos)) else ""
        match skip cs pos with
        | ⟨'}' :: cs, pos⟩ => return ([(key, text, v)], ⟨cs, pos + 1⟩)
        | ⟨',' :: cs, pos⟩ =>
          let (fs, cur) ← fields? fuel depth (skip cs (pos + 1))
          return ((key, text, v) :: fs, cur)
        | _ => none
      | _ => none
    | _ => none

end

/-- The first value of a text, and what stands after it. -/
def readFirst? (s : String) : Option (Json × List Char) :=
  let cs := s.toList
  (value? (2 * cs.length + 2) maxDepth (skip cs 0)).map fun (v, cur) => (v, cur.rest)

/-- A text that is one value, with nothing but white space around it. -/
def read? (s : String) : Option Json :=
  match readFirst? s with
  | some (v, rest) => if rest.all isSpace then some v else none
  | none => none

/-! ### Numbers as values -/

/-- An integer between two bounds. A number with a fraction or an exponent is none. -/
def intIn? (lo hi : Int) (text : String) : Option Int :=
  match Decimal.readInt text.toList with
  | some n => if lo ≤ n ∧ n ≤ hi then some n else none
  | none => none

end Json

end TreeMachine.Document
