/-!
# Source spans

The analyses never read source text. A span is whatever the producer of a program recorded, and a
span without a line is an unknown location.
-/

namespace Ownership

/-- A best-effort location: file, first line and column, last line and column. -/
structure Span where
  file : Option String := none
  line : Option Int := none
  column : Option Int := none
  endLine : Option Int := none
  endColumn : Option Int := none
deriving DecidableEq, Inhabited

/-- The positions of the first and the last token of a piece of text, as far as they are recorded;
`isEmpty` says that no token was consumed. -/
structure Extent where
  line : Option Int := none
  column : Option Int := none
  endLine : Option Int := none
  endColumn : Option Int := none
  isEmpty : Bool := false
deriving DecidableEq, Inhabited

namespace Span

def unknown : Span := {}

def isKnown (s : Span) : Bool := s.line.isSome

/-- The span of an extent in a file; without an extent, or with an empty one, only the file. -/
def ofExtent (file : Option String) : Option Extent → Span
  | none => { file }
  | some e =>
    if e.isEmpty then { file }
    else
      { file, line := e.line, column := e.column, endLine := e.endLine, endColumn := e.endColumn }

/-- The span itself when it is known, and otherwise the one to fall back on. -/
def orElse (s fallback : Span) : Span := if s.isKnown then s else fallback

/-- `file:line:column` without the parts that are missing; a missing column counts as zero. -/
def describe (s : Span) : String :=
  let file := match s.file with
    | some f => if f.isEmpty then [] else [f]
    | none => []
  let start := match s.line with
    | some l => [toString l ++ ":" ++ toString (s.column.getD 0)]
    | none => []
  match file ++ start with
  | [] => "<unknown location>"
  | parts => ":".intercalate parts

end Span

end Ownership
