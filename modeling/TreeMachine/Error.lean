import TreeMachine.Fault
import TreeMachine.Version

/-!
# Errors

What an operation of the library reports when it does not succeed: a fault of the program
at a place, a reason outside the program, or an operation that was applied outside its
domain. Layers add their context in front.
-/

namespace TreeMachine

/-- Reasons that are not faults of a program. -/
inductive Reason where
  | missingProgram
  | missingUnit (form : String)
  | malformedProgram
  | malformedValue
  | malformedConfig
  | noFormat
  | invalidFormat (text : String) (why : Version.Problem)
  | unsupportedFormat (version : Version)
  | redeclared (kind name : String)
  | labelsDiffer
  | rangesDiffer
  | lengthsDiffer (left right : Nat)
  | codeDiffers (address : Nat) (left right : String)
  /-- An argument that is no integer, as it is shown. -/
  | badArgument (index : Nat) (shown : String)
  | unclosedCall
  /-- A name that no function can have, as it is shown. -/
  | badFunctionName (shown : String)
  /-- The name of a function that is not there, as it is shown. -/
  | unknownFunction (shown : String)
  | negativeHeap (size : Int)
  | tooFewArguments (usage : String)
  /-- A failure that the system reported in its own words. -/
  | system (text : String)
  deriving Repr, DecidableEq

def Reason.message : Reason → String
  | missingProgram => "program is nil"
  | missingUnit form => s!"{form} unit is nil"
  | malformedProgram => "failed to parse program"
  | malformedValue => "failed to parse value expression"
  | malformedConfig => "failed to parse config file"
  | noFormat => "program document has no format version"
  | invalidFormat text why => s!"invalid format version {Text.quote text}: {why.message}"
  | unsupportedFormat version =>
    s!"unsupported format version {version.text} (want {Version.constraint})"
  | redeclared kind name => s!"{kind} {Text.quote name} already declared in this scope"
  | labelsDiffer => "label maps differ"
  | rangesDiffer => "function ranges differ"
  | lengthsDiffer left right => s!"code length {left} != {right}"
  | codeDiffers address left right => s!"address {address}: {left} != {right}"
  | badArgument index shown => s!"argument {index}: {shown} is not a 32-bit integer"
  | unclosedCall => "missing ')'"
  | badFunctionName shown => s!"bad function name {shown}"
  | unknownFunction shown =>
    s!"{(Fault.unresolvedName shown).tag}unresolved label or function {shown}"
  | negativeHeap size => s!"config: heap_size must not be negative, got {size}"
  | tooFewArguments usage => s!"insufficient arguments\nUsage: {usage}"
  | system text => text

/-- Whether the reason is text that could not be read as what it should be. -/
def Reason.isMalformed : Reason → Bool
  | malformedProgram | malformedValue | malformedConfig => true
  | _ => false

/-- An operation applied where it has no meaning. Nothing recovers from one. -/
inductive Crash where
  /-- A part of a tree that had to be there is missing. -/
  | missingPart
  /-- An element past the end of a list. -/
  | pastEnd (index length : Nat)
  /-- A part of a list between places that it does not have, or not in this order. -/
  | badCut (first last length : Nat)
  /-- A random choice from nothing. -/
  | emptyChoice (routine : String)
  deriving Repr, DecidableEq

def Crash.message : Crash → String
  | missingPart => "runtime error: invalid memory address or nil pointer dereference"
  | pastEnd index length =>
    s!"runtime error: index out of range [{index}] with length {length}"
  | badCut first last length =>
    "runtime error: slice bounds out of range " ++
      if length < last then s!"[:{last}] with length {length}" else s!"[{first}:{last}]"
  | emptyChoice routine => s!"invalid argument to {routine}"

/-- An error with its context. -/
inductive Error where
  | fault (cause : Fault) (place : Span)
  | reason (cause : Reason)
  | crash (cause : Crash)
  | within (context : String) (error : Error)
  deriving Repr, DecidableEq

namespace Error

/-- The message: every layer's context, then the cause. -/
def message : Error → String
  | fault cause place => cause.message place
  | reason cause => cause.message
  | crash cause => cause.message
  | within context error => s!"{context}: {error.message}"

def fault? : Error → Option Fault
  | fault cause _ => some cause
  | within _ error => error.fault?
  | _ => none

def crash? : Error → Option Crash
  | crash cause => some cause
  | within _ error => error.crash?
  | _ => none

/-- The code of the fault at the bottom; empty for other errors. -/
def code (e : Error) : String :=
  (e.fault?.map Fault.code).getD ""

/-- Whether the error carries a fault with this code. -/
def hasCode (e : Error) (code : String) : Bool :=
  e.code == code

def isMalformed : Error → Bool
  | reason cause => cause.isMalformed
  | within _ error => error.isMalformed
  | _ => false

/-- Adds a context in front of the error of a computation. -/
def wrap {α : Type} (context : String) : Except Error α → Except Error α
  | .ok a => .ok a
  | .error e => .error (.within context e)

end Error

/-- Checks that documents of the version named by `format` can be read. -/
def Version.check (format : String) : Except Reason Unit :=
  if format.isEmpty then .error .noFormat
  else
    match Version.parse format with
    | .error why => .error (.invalidFormat format why)
    | .ok v =>
      if v.isSupported then .ok () else .error (.unsupportedFormat v)

end TreeMachine
