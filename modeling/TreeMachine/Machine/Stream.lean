import TreeMachine.Text.Utf8

/-!
# Input and output of a run

Input is a byte string read from the front; past its end there is either the end of input
or a failure of the source. A reader takes bytes from its source in blocks, so what it
holds is out of reach for other readers of the same source. Output goes through a buffer
of a fixed size to a writer that may refuse all or a part of it; after the first refusal nothing
more is written.
-/

namespace TreeMachine

/-- The input of a run: a reader and its source. -/
structure Input where
  /-- The bytes not consumed yet: those the reader holds, then those of the source. -/
  rest : List UInt8 := []
  /-- How many bytes the reader holds. -/
  held : Nat := 0
  /-- What reading past the end fails with; without it the input just ends. -/
  failure : Option String := none
  /-- Whether anything has asked for input. -/
  touched : Bool := false
  deriving Repr, DecidableEq, Inhabited

namespace Input

def block : Nat := 4096

def ofText (text : String) : Input where
  rest := Utf8.bytes text

/-! ### Sharing a source -/

def source (i : Input) : Input :=
  { i with rest := i.rest.drop i.held, held := 0 }

/-- The reader on a source that others may have read from in the meantime. -/
def onto (i source : Input) : Input :=
  { source with rest := i.rest.take i.held ++ source.rest, held := i.held }

/-- The reader after it has filled its block from the source, as far as there is anything. -/
def fill (i : Input) : Input :=
  { i with held := (i.rest.take block).length, touched := true }

/-- How many bytes the reader holds after it has consumed `n`, if it fills its block
whenever there is nothing left in it. -/
def heldAfter (i : Input) (n : Nat) : Nat :=
  if n ≤ i.held then i.held - n
  else
    let start := (n - 1) / block * block
    ((i.rest.drop start).take block).length - (n - start)

/-! ### Reading -/

/-- The bytes up to and with the first line feed, the bytes after it, and whether there
was a line feed at all. -/
def cutLine : List UInt8 → List UInt8 × List UInt8 × Bool
  | [] => ([], [], false)
  | b :: bs =>
    if b == 10 then ([b], bs, true)
    else
      let (line, rest, found) := cutLine bs
      (b :: line, rest, found)

/-- The first `n` bytes, or fewer if there is a line feed or the end before; and whether
there was a line feed. -/
def cutLineWithin : Nat → List UInt8 → List UInt8 × Bool
  | 0, _ | _, [] => ([], false)
  | n + 1, b :: bs =>
    if b == 10 then ([b], true)
    else
      let (line, found) := cutLineWithin n bs
      (b :: line, found)

def dropEnd (b : UInt8) (bs : List UInt8) : List UInt8 :=
  if bs.getLast? == some b then bs.dropLast else bs

/-- A line without its end: one line feed, and then one carriage return, are dropped. -/
def chomp (line : List UInt8) : List UInt8 :=
  dropEnd 13 (dropEnd 10 line)

/-- Reads a line. At the end of input it is what is left. A failing source fails, and what
was left is gone. -/
def readLine (i : Input) : Except String (List UInt8) × Input :=
  let (line, rest, found) := cutLine i.rest
  let i' := { i with rest, held := i.heldAfter line.length, touched := true }
  match found, i.failure with
  | false, some why => (.error why, i')
  | _, _ => (.ok (chomp line), i')

/-- Reads a character; none at the end of input. The block is filled if the character may
go on behind it. -/
def readChar (i : Input) : Except String (Option Char) × Input :=
  let i := if 4 ≤ i.held || Utf8.isSettled (i.rest.take i.held) then i else i.fill
  match Utf8.next? i.rest with
  | some (c, rest) =>
    (.ok (some c), { i with rest, held := i.held - Utf8.sizeOfFirst i.rest })
  | none => (i.failure.elim (.ok none) .error, i)

/-- Whether the input has ended. Nothing is consumed. -/
def atEnd (i : Input) : Except String Bool × Input :=
  let i := if i.held = 0 then i.fill else i
  match i.rest, i.failure with
  | _ :: _, _ => (.ok false, i)
  | [], some why => (.error why, i)
  | [], none => (.ok true, i)

/-- A line as one reads it who holds no more than a block of it. -/
structure Stretch where
  bytes : List UInt8
  /-- Whether the line ends here. -/
  whole : Bool
  deriving Repr, DecidableEq

/-- Reads a line, or as much of it as fits a block; the rest of the line is left. A carriage
return that ends a full block is left too, since a line feed may follow. Nothing at the end
of input. -/
def readStretch (i : Input) : Option Stretch × Input :=
  let (line, found) := cutLineWithin block i.rest
  let consume (n : Nat) : Input :=
    { i with rest := i.rest.drop n, held := i.heldAfter n, touched := true }
  if found then (some ⟨chomp line, true⟩, consume line.length)
  else if line.isEmpty then (none, i.fill)
  else if line.length < block then (some ⟨line, true⟩, consume line.length)
  else
    let bytes := dropEnd 13 line
    (some ⟨bytes, false⟩, { i with
      rest := i.rest.drop bytes.length
      held := block - bytes.length
      touched := true })

def stretches (i : Input) : Nat → List Stretch
  | 0 => []
  | n + 1 =>
    match i.readStretch with
    | (none, _) => []
    | (some s, i) => s :: i.stretches n

end Input

/-- A writer outside of the program, known by what it answers. -/
structure Writer where
  /-- What it answers to a write of some bytes, after a number of writes and with some bytes
  delivered: nothing if it accepts all of them, or how many it accepts and why it refuses the
  others. -/
  refusal : Nat → ByteArray → ByteArray → Option (Nat × String) := fun _ _ _ => none
  /-- Whether it takes texts of any length, so that these need not go through a buffer. -/
  direct : Bool := false
  deriving Inhabited

/-- A writer that accepts bytes up to a limit in total and refuses a write that would pass it as
a whole. -/
def Writer.upTo (limit : Nat) : Writer where
  refusal _ delivered bytes :=
    if limit < delivered.size + bytes.size then some (0, "sink full") else none

/-- Where output ends up: a writer, and what it has accepted. -/
structure Sink where
  writer : Writer := {}
  /-- How many writes there were. -/
  writes : Nat := 0
  delivered : ByteArray := ByteArray.empty
  deriving Inhabited

namespace Sink

/-- Writes bytes: how many are accepted, and why the others are refused. -/
def write (s : Sink) (bytes : ByteArray) : Nat × Option String × Sink :=
  match s.writer.refusal s.writes s.delivered bytes with
  | none =>
    (bytes.size, none, { s with writes := s.writes + 1, delivered := s.delivered ++ bytes })
  | some (n, why) =>
    let n := min n bytes.size
    (n, some why,
      { s with writes := s.writes + 1, delivered := s.delivered ++ bytes.extract 0 n })

/-- Writes a text; what is refused of it is lost. -/
def writeText (s : Sink) (text : String) : Option String × Sink :=
  (s.write text.toUTF8).2

/-- The text delivered after the first `n` bytes. -/
def textFrom (s : Sink) (n : Nat) : String :=
  Utf8.text (s.delivered.extract n s.delivered.size).toList

def text (s : Sink) : String :=
  s.textFrom 0

end Sink

/-- Buffered output. -/
structure Output where
  buffer : ByteArray := ByteArray.empty
  sink : Sink := {}
  /-- The refusal after which nothing more is written. -/
  failure : Option String := none
  deriving Inhabited

namespace Output

def capacity : Nat := 4096

/-- Passes on full buffers while more than one buffer is pending; `fuel` bounds their
number. When the buffer is empty, a writer that takes texts of any length gets the whole text. -/
def spill : Nat → Bool → ByteArray → Sink → ByteArray × Sink × Option String
  | 0, _, pending, sink => (pending, sink, none)
  | fuel + 1, clear, pending, sink =>
    if pending.size ≤ capacity then (pending, sink, none)
    else
      let size := if clear && sink.writer.direct then pending.size else capacity
      match sink.write (pending.extract 0 size) with
      | (n, some why, sink) => (pending.extract n pending.size, sink, some why)
      | (_, none, sink) => spill fuel true (pending.extract size pending.size) sink

/-- Writes bytes behind what is pending. Whenever more than a full buffer is pending, the
full buffer is passed on; a buffer that is just full stays. -/
def write (o : Output) (bytes : ByteArray) : Output :=
  match o with
  | { buffer, sink, failure := some why } => { buffer, sink, failure := some why }
  | { buffer, sink, failure := none } =>
    let clear := buffer.size == 0
    let pending := buffer ++ bytes
    let (buffer, sink, failure) := spill (pending.size / capacity) clear pending sink
    { buffer, sink, failure }

/-- Passes on what is pending. What is refused of it stays pending. -/
def flush (o : Output) : Output :=
  match o with
  | { buffer, sink, failure := some why } => { buffer, sink, failure := some why }
  | { buffer, sink, failure := none } =>
    if buffer.size = 0 then { buffer, sink, failure := none }
    else
      match sink.write buffer with
      | (n, some why, sink) =>
        { buffer := buffer.extract n buffer.size, sink, failure := some why }
      | (_, none, sink) => { buffer := ByteArray.empty, sink, failure := none }

end Output

end TreeMachine
