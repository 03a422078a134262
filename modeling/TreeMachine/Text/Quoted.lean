import TreeMachine.Text.Printable

/-!
# Quoted text

How messages show a name or a piece of input: between double quotes, with the quote, the
backslash and everything that is not printable escaped.
-/

namespace TreeMachine.Text

/-- The lower-case hexadecimal digits of `n`, padded with zeros to `width`. -/
def hex (width n : Nat) : List Char :=
  let ds := Nat.toDigits 16 n
  List.replicate (width - ds.length) '0' ++ ds

/-- A character inside quotes. Control characters with a letter of their own use it; other
unprintable ones are written in hexadecimal, with two digits in ASCII, four in the basic
plane and eight above. -/
def quoteChar (c : Char) : List Char :=
  let n := c.toNat
  if n == 0x22 || n == 0x5C then ['\\', c]
  else if isPrintable c then [c]
  else match n with
    | 7 => ['\\', 'a']
    | 8 => ['\\', 'b']
    | 12 => ['\\', 'f']
    | 10 => ['\\', 'n']
    | 13 => ['\\', 'r']
    | 9 => ['\\', 't']
    | 11 => ['\\', 'v']
    | _ =>
      if n < 0x80 then '\\' :: 'x' :: hex 2 n
      else if n < 0x10000 then '\\' :: 'u' :: hex 4 n
      else '\\' :: 'U' :: hex 8 n

def inQuotes (inside : List Char) : String :=
  String.ofList ('\x22' :: inside ++ ['\x22'])

/-- A text between double quotes, on one line and without unprintable characters. -/
def quote (s : String) : String :=
  inQuotes (s.toList.flatMap quoteChar)

end TreeMachine.Text
