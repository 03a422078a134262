import TreeMachine.Text.Quoted
import TreeMachine.Text.Utf8

/-!
# Text with stray bytes

Bytes that are cut somewhere may start or end within a character. A glyph is a character or
a byte that is part of none, so that messages can show such bytes as they are.
-/

namespace TreeMachine

/-- A character, or a byte that is part of none. -/
inductive Glyph where
  | char (c : Char)
  | stray (b : UInt8)
  deriving Repr, DecidableEq

namespace Glyph

def char? : Glyph → Option Char
  | char c => some c
  | stray _ => none

/-- The character to print; a stray byte prints as the replacement character. -/
def toChar : Glyph → Char
  | char c => c
  | stray _ => Utf8.replacement

/-- The first glyph of bytes that start with `b` and have `c` as their first character. The
replacement character may stand there itself, but then it takes several bytes. -/
def first (b : UInt8) (bs : List UInt8) (c : Char) : Glyph :=
  if 0x80 ≤ b && Utf8.sizeOfFirst (b :: bs) == 1 then stray b else char c

/-- At most `n` glyphs from the front of a byte string. -/
def take : Nat → List UInt8 → List Glyph
  | 0, _ | _, [] => []
  | n + 1, b :: bs =>
    match Utf8.next? (b :: bs) with
    | none => []
    | some (c, rest) => first b bs c :: take n rest

def ofBytes (bs : List UInt8) : List Glyph :=
  take bs.length bs

def text? (gs : List Glyph) : Option String :=
  (gs.mapM char?).map String.ofList

/-- Whether bytes are text: none of them is stray. -/
def areText (bs : List UInt8) : Bool :=
  (text? (ofBytes bs)).isSome

def text (gs : List Glyph) : String :=
  String.ofList (gs.map toChar)

/-- A glyph inside quotes: a stray byte is written in hexadecimal. -/
def quoted : Glyph → List Char
  | char c => Text.quoteChar c
  | stray b => '\\' :: 'x' :: Text.hex 2 b.toNat

def quote (gs : List Glyph) : String :=
  Text.inQuotes (gs.flatMap quoted)

end Glyph

end TreeMachine
