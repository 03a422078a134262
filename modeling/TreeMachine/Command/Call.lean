import TreeMachine.Error
import TreeMachine.Text.Blank

/-!
# Calls as they are typed

A call is a name and integer arguments, as `name(1, 2)` or as `name 1 2`. Lines are read as
lists of symbols, most of which are characters, so that a line with other symbols in it can
be read, and refused, like any other.
-/

namespace TreeMachine.Command

/-- A call: the name of a function and its arguments. -/
structure Call where
  name : String
  args : List Int32
  deriving Repr, DecidableEq

namespace Call

/-- Why a line of symbols is no call. -/
inductive Trouble (α : Type) where
  | empty
  | badCut (first last length : Nat)
  | unclosed
  | badName (name : List α)
  | badArgument (index : Nat) (word : List α)
  deriving Repr, DecidableEq

/-- The error for a trouble, given how symbols are shown in quotes. -/
def Trouble.error {α : Type} (quote : List α → String) : Trouble α → Error
  | empty => .crash (.pastEnd 0 0)
  | badCut first last length => .crash (.badCut first last length)
  | unclosed => .reason .unclosedCall
  | badName name => .reason (.badFunctionName (quote name))
  | badArgument index word => .reason (.badArgument index (quote word))

def quoteChars (cs : List Char) : String :=
  Text.quote (String.ofList cs)

variable {α : Type} (char? : α → Option Char)

def isChar (p : Char → Bool) (a : α) : Bool :=
  (char? a).any p

/-- Reads an argument; white space around it does not matter. -/
def readArg? (word : List α) : Option Int32 :=
  (word.mapM char?).bind fun cs => Decimal.int32? (Text.trim cs)

def readArgs (i : Nat) : List (List α) → Except (Trouble α) (List Int32)
  | [] => .ok []
  | word :: rest =>
    match readArg? char? word with
    | none => .error (.badArgument i word)
    | some v => do
      let vs ← readArgs (i + 1) rest
      return v :: vs

/-- A call with a name and words for its arguments. -/
def ofWords (name : List α) (args : List (List α)) :
    Except (Trouble α) (List α × List Int32) :=
  if name.isEmpty || name.any (isChar char? fun c => c == ' ' || c == '\t') then
    .error (.badName name)
  else do
    let args ← readArgs char? 1 args
    return (name, args)

/-- The part of a line from one place up to another. -/
def cut (line : List α) (first last : Nat) : Except (Trouble α) (List α) :=
  if first ≤ last ∧ last ≤ line.length then .ok ((line.take last).drop first)
  else .error (.badCut first last line.length)

/-- Reads a line of symbols. If there is an opening parenthesis, the closing one ends the
line, and commas separate like white space. A line without any word has no meaning. -/
def readLine (line : List α) : Except (Trouble α) (List α × List Int32) :=
  match line.findIdx? (isChar char? (· == '(')) with
  | some i =>
    if line.getLast?.any (isChar char? (· == ')')) then do
      let name ← cut line 0 i
      let inner ← cut line (i + 1) (line.length - 1)
      ofWords char? (Text.trimBy (isChar char? Text.isBlank) name)
        (Text.wordsBy (isChar char? fun c => c == ',' || Text.isBlank c) inner)
    else .error .unclosed
  | none =>
    match Text.wordsBy (isChar char? Text.isBlank) line with
    | [] => .error .empty
    | name :: args => ofWords char? name args

def parse (line : String) : Except Error Call :=
  match readLine some line.toList with
  | .ok (name, args) => .ok { name := String.ofList name, args }
  | .error t => .error (t.error quoteChars)

end Call

def parseArgs (args : List String) : Except Error (List Int32) :=
  (Call.readArgs some 1 (args.map String.toList)).mapError (·.error Call.quoteChars)

end TreeMachine.Command
