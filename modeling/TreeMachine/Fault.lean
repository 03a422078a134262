import TreeMachine.Position
import TreeMachine.Text.Decimal
import TreeMachine.Text.Quoted

/-!
# Faults

Everything that can be wrong with a program: while it is built, while its names are
linked, and while it runs. A `Fault` is the cause; its category, code, wording and the
facts it reports are functions of it.
-/

namespace TreeMachine

/-- The stage or resource a fault belongs to. -/
inductive Category where
  | build
  | link
  | memory
  | bounds
  | arithmetic
  | assertion
  | stack
  | io
  deriving Repr, DecidableEq

def Category.text : Category → String
  | .build => "BUILD"
  | .link => "LINK"
  | .memory => "MEMORY"
  | .bounds => "BOUNDS"
  | .arithmetic => "ARITHMETIC"
  | .assertion => "ASSERT"
  | .stack => "STACK"
  | .io => "IO"

/-- A cause of failure, with the facts it reports. -/
inductive Fault where
  | duplicateLabel (name : String)
  | unresolvedScope (name : String)
  | unsupportedNode (what : String)
  | unsupportedOperator (op : String)
  | unresolvedName (name : String)
  | divisionByZero (operation : String)
  | heapExhausted (requested used limit : Int)
  | invalidSize (size : Int32) (context : String)
  | badAddress (address : Int32) (reason : String)
  | nullPointer (operation : String)
  | indexOutOfBounds (function : String)
  | assertionFailed (function : String)
  | operandTag (operation got : String)
  | callDepthExceeded (depth : Int)
  | returnCount (function : String) (want got : Int)
  | badInstruction (ip : Int)
  | ioFailure (operation cause : String)
  deriving Repr, DecidableEq

/-- A fact that a fault reports: a text or a number. -/
inductive Fact where
  | text (s : String)
  | number (n : Int)
  deriving Repr, DecidableEq

namespace Fault

def category : Fault → Category
  | duplicateLabel _ | unresolvedScope _ | unsupportedNode _ | unsupportedOperator _ => .build
  | unresolvedName _ => .link
  | divisionByZero _ => .arithmetic
  | heapExhausted .. | invalidSize .. | badAddress .. | nullPointer _ => .memory
  | indexOutOfBounds _ => .bounds
  | assertionFailed _ => .assertion
  | operandTag .. | callDepthExceeded _ | returnCount .. | badInstruction _ => .stack
  | ioFailure .. => .io

def code : Fault → String
  | duplicateLabel _ => "DUPLICATE_LABEL"
  | unresolvedScope _ => "UNRESOLVED_SCOPE"
  | unsupportedNode _ => "UNSUPPORTED_NODE"
  | unsupportedOperator _ => "UNSUPPORTED_OPERATOR"
  | unresolvedName _ => "UNRESOLVED_NAME"
  | divisionByZero _ => "DIVISION_BY_ZERO"
  | heapExhausted .. => "HEAP_EXHAUSTED"
  | invalidSize .. => "INVALID_SIZE"
  | badAddress .. => "BAD_ADDRESS"
  | nullPointer _ => "NULL_POINTER"
  | indexOutOfBounds _ => "INDEX_OUT_OF_BOUNDS"
  | assertionFailed _ => "ASSERTION_FAILED"
  | operandTag .. => "OPERAND_TAG"
  | callDepthExceeded _ => "CALL_DEPTH_EXCEEDED"
  | returnCount .. => "RETURN_COUNT"
  | badInstruction _ => "BAD_INSTRUCTION_POINTER"
  | ioFailure .. => "IO_FAILURE"

def sentence : Fault → String
  | duplicateLabel name => s!"label {Text.quote name} defined more than once"
  | unresolvedScope name => s!"no scope resolves {Text.quote name}"
  | unsupportedNode what => s!"cannot generate {what}"
  | unsupportedOperator op => s!"operator {Text.quote op} has no value encoding"
  | unresolvedName name => s!"unresolved label or function {Text.quote name}"
  | divisionByZero operation => s!"{operation} by zero"
  | heapExhausted requested used limit =>
    s!"heap exhausted: requested {requested} bytes with {used} of {limit} in use"
  | invalidSize size context => s!"invalid size {Decimal.ofInt32 size} in {context}"
  | badAddress address reason => s!"bad memory address {Decimal.ofInt32 address}: {reason}"
  | nullPointer operation => s!"null address in {operation}"
  | indexOutOfBounds function => s!"array index out of bounds in {function}"
  | assertionFailed function => s!"assertion failed in {function}"
  | operandTag operation got => s!"{operation} cannot use a {got} operand"
  | callDepthExceeded depth => s!"call depth {depth} exceeded"
  | returnCount function want got =>
    s!"{function} returned {got} values, caller expects {want}"
  | badInstruction ip => s!"instruction pointer {ip} outside program"
  | ioFailure operation cause => s!"{operation}: {cause}"

def facts : Fault → List (String × Fact)
  | duplicateLabel name => [("label", .text name)]
  | unresolvedScope name => [("name", .text name)]
  | unsupportedNode what => [("node", .text what)]
  | unsupportedOperator op => [("operator", .text op)]
  | unresolvedName name => [("name", .text name)]
  | divisionByZero operation => [("operation", .text operation)]
  | heapExhausted requested used limit =>
    [("requested", .number requested), ("used", .number used), ("limit", .number limit)]
  | invalidSize size context => [("size", .number size.toInt), ("context", .text context)]
  | badAddress address reason =>
    [("address", .number address.toInt), ("reason", .text reason)]
  | nullPointer operation => [("operation", .text operation)]
  | indexOutOfBounds function => [("function", .text function)]
  | assertionFailed function => [("function", .text function)]
  | operandTag operation got => [("operation", .text operation), ("operand", .text got)]
  | callDepthExceeded depth => [("depth", .number depth)]
  | returnCount function want got =>
    [("function", .text function), ("want", .number want), ("got", .number got)]
  | badInstruction ip => [("ip", .number ip)]
  | ioFailure operation _ => [("operation", .text operation)]

/-- What another system said, for a fault that passes its failure on. -/
def cause? : Fault → Option String
  | ioFailure _ cause => some cause
  | _ => none

/-- Whether the fault arises before anything runs. -/
def isBuildTime (f : Fault) : Bool :=
  f.category == .build || f.category == .link

def tag (f : Fault) : String :=
  s!"[{f.category.text}:{f.code}] "

/-- The full message of a fault at a place: the tag, the place where it is known, and the
sentence. -/
def message (f : Fault) (span : Span) : String :=
  if span.start.isValid then s!"{f.tag}{span.text}: {f.sentence}" else f.tag ++ f.sentence

end Fault

end TreeMachine
