/-!
# White space

The characters that separate words, and the two ways text is cut at them: trimming both
ends, and splitting into words. The class is the one of the Unicode property
`White_Space`, so it reaches past ASCII.
-/

namespace TreeMachine.Text

/-- White space in the Unicode sense: the control characters from tab to carriage return,
the space, the next-line and no-break spaces, and the typographic spaces. -/
def isBlank (c : Char) : Bool :=
  let n := c.toNat
  (9 ≤ n && n ≤ 13) || n == 32 || n == 0x85 || n == 0xA0 || n == 0x1680 ||
    (0x2000 ≤ n && n ≤ 0x200A) || n == 0x2028 || n == 0x2029 || n == 0x202F ||
    n == 0x205F || n == 0x3000

def trimBy {α : Type} (blank : α → Bool) (l : List α) : List α :=
  ((l.dropWhile blank).reverse.dropWhile blank).reverse

def trim (cs : List Char) : List Char :=
  trimBy isBlank cs

def trimmed (s : String) : String :=
  String.ofList (trim s.toList)

/-- The words of a list whose current word, read backwards, is `word`. -/
def wordsFrom {α : Type} (sep : α → Bool) (word : List α) : List α → List (List α)
  | [] => if word.isEmpty then [] else [word.reverse]
  | c :: cs =>
    if sep c then
      if word.isEmpty then wordsFrom sep [] cs else word.reverse :: wordsFrom sep [] cs
    else wordsFrom sep (c :: word) cs

/-- The maximal runs of what is no separator, in order; none is empty. -/
def wordsBy {α : Type} (sep : α → Bool) (l : List α) : List (List α) :=
  wordsFrom sep [] l

/-- Whether `part` occurs in the text as a contiguous piece. -/
def isInfix (part : List Char) : List Char → Bool
  | [] => part.isEmpty
  | c :: cs => part.isPrefixOf (c :: cs) || isInfix part cs

def contains (s part : String) : Bool :=
  isInfix part.toList s.toList

/-- A text padded with spaces on the right to `width` characters. -/
def padRight (s : String) (width : Nat) : String :=
  s ++ String.ofList (List.replicate (width - s.length) ' ')

/-- A text padded with spaces on the left to `width` characters. -/
def padLeft (s : String) (width : Nat) : String :=
  String.ofList (List.replicate (width - s.length) ' ') ++ s

end TreeMachine.Text
