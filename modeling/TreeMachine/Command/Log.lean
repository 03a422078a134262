import TreeMachine.Text.Decimal

/-!
# The log

Log lines carry a level and the time of day. A log is text with gaps for the readings of
the clock, since only the one who runs a command knows the time: `Report.fill` fills them.
-/

namespace TreeMachine.Command

/-- A piece of a report. -/
inductive Piece where
  | text (s : String)
  /-- The time of day. -/
  | clock
  /-- The time since the command started. -/
  | elapsed
  deriving Repr, DecidableEq

abbrev Report := Array Piece

def Report.fill (r : Report) (clock elapsed : String) : String :=
  String.join (r.toList.map fun
    | .text s => s
    | .clock => clock
    | .elapsed => elapsed)

/-- The levels of log lines. -/
inductive Level where
  | info
  | debug
  | warn
  | error
  deriving Repr, DecidableEq

def Level.tag : Level → String
  | .info => "[INFO]"
  | .debug => "[DEBUG]"
  | .warn => "[WARN]"
  | .error => "[ERROR]"

/-- The terminal sequence that sets the colour of a level. -/
def Level.color : Level → String
  | .info | .debug => "\x1b[36m"
  | .warn => "\x1b[33m"
  | .error => "\x1b[31m"

def colorReset : String := "\x1b[0m"

/-- What a log shows, and how. -/
structure Log where
  verbose : Bool := false
  debug : Bool := false
  color : Bool := false
  deriving Repr, DecidableEq

namespace Log

/-- Whether lines of a level are shown. Warnings and errors always are. -/
def shows (log : Log) : Level → Bool
  | .info => log.verbose
  | .debug => log.debug
  | .warn | .error => true

/-- A line of the log; nothing if its level is not shown. -/
def line (log : Log) (level : Level) (message : List Piece) : List Piece :=
  if log.shows level then
    let tag := if log.color then level.color ++ level.tag ++ colorReset else level.tag
    .text (tag ++ " ") :: .clock :: .text ": " :: message ++ [.text "\n"]
  else []

def textLine (log : Log) (level : Level) (message : String) : List Piece :=
  log.line level [.text message]

end Log

/-! ### Durations -/

/-- The digits of a fraction of `places` places, without zeros at the end, after a point. -/
def fractionText (places n : Nat) : String :=
  let digits := (toString n).toList
  let padded := List.replicate (places - digits.length) '0' ++ digits
  match (padded.reverse.dropWhile (· == '0')).reverse with
  | [] => ""
  | ds => String.ofList ('.' :: ds)

/-- A duration in microseconds as text, in the largest fitting unit below a minute, and in
hours, minutes and seconds above. -/
def durationText (micros : Nat) : String :=
  if micros = 0 then "0s"
  else if micros < 1000 then s!"{micros}µs"
  else if micros < 1000000 then s!"{micros / 1000}{fractionText 3 (micros % 1000)}ms"
  else
    let total := micros / 1000000
    let seconds := s!"{total % 60}{fractionText 6 (micros % 1000000)}s"
    let minutes := total / 60
    if minutes = 0 then seconds
    else if minutes < 60 then s!"{minutes}m{seconds}"
    else s!"{minutes / 60}h{minutes % 60}m{seconds}"

end TreeMachine.Command
