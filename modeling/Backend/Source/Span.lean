/-
# Places in a source text

A `Position` is a line and a column, a `Span` the stretch from one position to another.  A tree
that was not read from a text has the span from `0:0` to `0:0`.
-/

namespace Backend

/-- A line and a column of a source text. -/
structure Position where
  line : Nat := 0
  column : Nat := 0
  deriving DecidableEq, Repr, Inhabited

/-- A position as `line:column`. -/
def Position.text (p : Position) : String := s!"{p.line}:{p.column}"

/-- The stretch of source text that a tree node covers. -/
structure Span where
  start : Position := {}
  stop : Position := {}
  deriving DecidableEq, Repr, Inhabited

namespace Span

/-- Whether the span covers nothing. -/
def isEmpty (s : Span) : Bool := s.start = s.stop

/-- Whether the span starts where an unplaced tree node stands. -/
def startsAtOrigin (s : Span) : Bool := s.start = {}

end Span

end Backend
