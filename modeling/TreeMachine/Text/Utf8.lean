/-!
# Reading UTF-8

Bytes are read one character at a time. A byte that does not start a well-formed sequence
is read on its own as the replacement character, so every byte string has a reading.
-/

namespace TreeMachine.Utf8

/-- What stands for a byte or a number that is no character. -/
def replacement : Char := '�'

/-- Whether a byte continues a sequence, when it must lie between `lo` and `hi`. -/
def between (lo hi : UInt8) (b : UInt8) : Bool :=
  lo ≤ b && b ≤ hi

def tailBits (b : UInt8) : Nat :=
  b.toNat % 64

/-- The least second byte that a first byte allows: longer forms than needed are refused. -/
def leastSecond (b : UInt8) : UInt8 :=
  if b == 0xE0 then 0xA0 else if b == 0xF0 then 0x90 else 0x80

/-- The greatest second byte that a first byte allows: surrogates and values past the last
code point are refused. -/
def greatestSecond (b : UInt8) : UInt8 :=
  if b == 0xED then 0x9F else if b == 0xF4 then 0x8F else 0xBF

/-- The first character of a byte string and the bytes after it. -/
def next? : List UInt8 → Option (Char × List UInt8)
  | [] => none
  | b :: rest =>
    if b < 0x80 then some (Char.ofNat b.toNat, rest)
    else if between 0xC2 0xDF b then
      match rest with
      | c :: rest' =>
        if between 0x80 0xBF c then
          some (Char.ofNat ((b.toNat % 32) * 64 + tailBits c), rest')
        else some (replacement, rest)
      | [] => some (replacement, rest)
    else if between 0xE0 0xEF b then
      match rest with
      | c :: d :: rest' =>
        if between (leastSecond b) (greatestSecond b) c && between 0x80 0xBF d then
          some (Char.ofNat (((b.toNat % 16) * 64 + tailBits c) * 64 + tailBits d), rest')
        else some (replacement, rest)
      | _ => some (replacement, rest)
    else if between 0xF0 0xF4 b then
      match rest with
      | c :: d :: e :: rest' =>
        if between (leastSecond b) (greatestSecond b) c && between 0x80 0xBF d &&
            between 0x80 0xBF e then
          some (Char.ofNat
            ((((b.toNat % 8) * 64 + tailBits c) * 64 + tailBits d) * 64 + tailBits e), rest')
        else some (replacement, rest)
      | _ => some (replacement, rest)
    else some (replacement, rest)

/-- How many bytes the first character takes; four are the most. -/
def sizeOfFirst (bs : List UInt8) : Nat :=
  let front := bs.take 4
  front.length - ((next? front).elim 0 (·.2.length))

/-- How many bytes a first byte asks for in all; one that starts no sequence stands alone. -/
def width (b : UInt8) : Nat :=
  if between 0xC2 0xDF b then 2 else if between 0xE0 0xEF b then 3
  else if between 0xF0 0xF4 b then 4 else 1

/-- Whether no bytes behind these can change their first character: it is complete, or it
is refused already. -/
def isSettled : List UInt8 → Bool
  | [] => false
  | b :: rest =>
    let second := between (leastSecond b) (greatestSecond b)
    width b ≤ rest.length + 1 ||
    match rest with
    | [] => false
    | [c] => !second c
    | c :: d :: _ => !second c || !between 0x80 0xBF d

/-- At most `n` characters from the front of a byte string. -/
def take : Nat → List UInt8 → List Char
  | 0, _ => []
  | n + 1, bs =>
    match next? bs with
    | none => []
    | some (c, rest) => c :: take n rest

/-- The characters of a byte string. Every character takes at least one byte, so no more
of them are asked for than there are bytes. -/
def decode (bs : List UInt8) : List Char :=
  take bs.length bs

def text (bs : List UInt8) : String :=
  String.ofList (decode bs)

def bytes (s : String) : List UInt8 :=
  s.toUTF8.toList

def encode (cs : List Char) : List UInt8 :=
  cs.flatMap String.utf8EncodeChar

/-- The character a 32-bit code stands for; numbers that are no code point stand for the
replacement character. -/
def charOfCode (v : Int32) : Char :=
  let n := v.toInt.toNat
  if v < 0 ∨ (0xD800 ≤ n ∧ n ≤ 0xDFFF) ∨ 0x10FFFF < n then replacement else Char.ofNat n

def codeOfChar (c : Char) : Int32 :=
  Int32.ofNat c.toNat

end TreeMachine.Utf8
