import TreeMachine.Text.Path

/-!
# Places in source text

A `Position` is a point in a file, a `Span` the stretch between two points. Both are
carried from the document to the errors raised about it.
-/

namespace TreeMachine

/-- A point in a source file. Lines and columns count from one, offsets from zero; the
zero position stands for an unknown place. -/
structure Position where
  file : String := ""
  line : Int := 0
  column : Int := 0
  offset : Int := 0
  deriving Repr, DecidableEq, Inhabited

namespace Position

def isValid (p : Position) : Bool :=
  0 < p.line && 0 < p.column && 0 ≤ p.offset

/-- `file:line:column` with the file's last path element, `line:column` without a file,
and a dash for an unknown place. -/
def text (p : Position) : String :=
  if !p.isValid then "-"
  else if p.file.isEmpty then s!"{p.line}:{p.column}"
  else s!"{Path.base p.file}:{p.line}:{p.column}"

/-- The order of positions: by file name, and by offset in one file. -/
def before (p q : Position) : Bool :=
  if p.file ≠ q.file then p.file < q.file else p.offset < q.offset

end Position

/-- A stretch of source text, from `start` up to and not including `stop`. -/
structure Span where
  start : Position := {}
  stop : Position := {}
  deriving Repr, DecidableEq, Inhabited

namespace Span

/-- Whether both ends are known, lie in one file and stand in order. -/
def isValid (s : Span) : Bool :=
  s.start.isValid && s.stop.isValid && s.start.file == s.stop.file &&
    s.start.offset ≤ s.stop.offset

/-- The start, followed by the end where it differs: the column alone on the same line,
line and column otherwise. -/
def text (s : Span) : String :=
  if !s.start.isValid then "-"
  else if !s.stop.isValid || s.stop == s.start then s.start.text
  else
    let file := if s.start.file.isEmpty then "" else Path.base s.start.file ++ ":"
    if s.start.line == s.stop.line then
      s!"{file}{s.start.line}:{s.start.column}-{s.stop.column}"
    else
      s!"{file}{s.start.line}:{s.start.column}-{s.stop.line}:{s.stop.column}"

/-- Whether a known position lies inside a known span. -/
def contains (s : Span) (p : Position) : Bool :=
  s.isValid && p.isValid && p.file == s.start.file &&
    s.start.offset ≤ p.offset && p.offset < s.stop.offset

def point (file : String) (line column : Int) : Span :=
  let p : Position := { file, line, column }
  { start := p, stop := p }

end Span

end TreeMachine
