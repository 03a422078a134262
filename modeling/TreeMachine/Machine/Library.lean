import TreeMachine.Machine.Heap
import TreeMachine.Machine.Routine
import TreeMachine.Machine.Stream
import TreeMachine.Random.Pcg
import TreeMachine.Text.Blank

/-!
# The library

What library routines do. They act on the `World`: everything outside the control state of
a run, that is the heap, the source of fillers for unset registers, and input and output.
Text is an array of character codes in the heap.

An action keeps the world it has reached when it fails.
-/

namespace TreeMachine

/-- Everything a program acts on. -/
structure World where
  heap : Heap
  filler : Pcg
  input : Input
  output : Output
  deriving Inhabited

abbrev Act := EStateM Fault World

namespace World

def inspect {α : Type} (f : Heap → Except Fault α) : Act α := fun w =>
  match f w.heap with
  | .ok a => .ok a w
  | .error cause => .error cause w

def alloc (size : Int32) : Act Int32 := do
  let addr ← inspect (·.room size)
  modify fun w => { w with heap := w.heap.extend size.toInt.toNat }
  return addr

def store (addr v : Int32) : Act Unit := do
  let a ← inspect (·.locate addr "store")
  modify fun w => { w with heap := w.heap.putWord a v }

/-- Puts an array into the heap and gives its reference. -/
def newArray (xs : List Int32) : Act Int32 := do
  let base ← inspect (·.room (Heap.arraySize xs.length))
  modify fun w => { w with heap := w.heap.appendArray xs }
  return base + 4

def drawFiller : Act Int32 := do
  let w ← get
  let (v, filler) := w.filler.nextInt32
  set { w with filler }
  return v

def readText (ref : Int32) : Act (List Char) := do
  let codes ← inspect (·.array ref)
  return codes.map Utf8.charOfCode

/-- Puts a text into the heap and gives its reference. -/
def newText (cs : List Char) : Act Int32 :=
  newArray (cs.map Utf8.codeOfChar)

def checkOutput (operation : String) : Act Unit := fun w =>
  match w.output.failure with
  | some why => .error (.ioFailure operation why) w
  | none => .ok () w

def write (operation : String) (bytes : ByteArray) : Act Unit := do
  modify fun w => { w with output := w.output.write bytes }
  checkOutput operation

def flush : Act Unit := do
  modify fun w => { w with output := w.output.flush }
  checkOutput "flush stdout"

/-- Reads from the input. Output is passed on first. -/
def read {α : Type} (operation : String) (f : Input → Except String α × Input) : Act α := do
  flush
  fun w =>
    match f w.input with
    | (.ok a, input) => .ok a { w with input }
    | (.error why, input) => .error (.ioFailure operation why) { w with input }

end World

namespace Routine

def firstArg (name : String) : List Int32 → Act Int32
  | [] => throw (.operandTag name "0 arguments, want 1")
  | v :: _ => return v

def runPrint (args : List Int32) : Act Unit := do
  let ref ← firstArg "print" args
  let cs ← World.readText ref
  World.write "print" (String.ofList cs).toUTF8

/-- The words an integer's text is read as: its value and one, or two zeros for a text
that is no 32-bit integer. White space around the number does not count. -/
def parseResult (cs : List Char) : List Int32 :=
  match Decimal.int32? (Text.trim cs) with
  | some v => [v, 1]
  | none => [0, 0]

def run (caller : String) (args : List Int32) : Routine → Act (List Int32)
  | outOfBounds => throw (.indexOutOfBounds caller)
  | assert => do
    let v ← firstArg "assert" args
    if v = 0 then throw (.assertionFailed caller)
    return []
  | eof => do
    let ended ← World.read "eof" Input.atEnd
    return [if ended then 1 else 0]
  | getchar => do
    match ← World.read "getchar" Input.readChar with
    | some c => return [Utf8.codeOfChar c]
    | none => return [-1]
  | lengthBool | lengthInt => do
    let ref ← firstArg "length" args
    return [← World.inspect (·.arrayLength ref)]
  | malloc => do
    let size ← firstArg "malloc" args
    return [← World.alloc size]
  | parseInt => do
    let ref ← firstArg "parseInt" args
    return parseResult (← World.readText ref)
  | print => do
    runPrint args
    return []
  | println => do
    runPrint args
    World.write "println" (ByteArray.mk #[10])
    return []
  | readln => do
    let line ← World.read "readln" Input.readLine
    return [← World.newText (Utf8.decode line)]
  | unparseInt => do
    let v ← firstArg "unparseInt" args
    return [← World.newText (Decimal.ofInt32 v).toList]

end Routine

end TreeMachine
