/-!
# Spans

A stretch of source text: where it begins, in bytes and as line and column, and
how many bytes it covers.
-/

namespace ConnectorAudit

/-- A stretch of source text. -/
structure Span where
  /-- Byte offset of the first character. -/
  offset : Nat := 0
  /-- Length in bytes. -/
  length : Nat := 0
  line : Nat := 0
  column : Nat := 0
  deriving DecidableEq, Repr, Inhabited

namespace Span

/-- The byte offset behind the stretch. -/
def stop (s : Span) : Nat := s.offset + s.length

/-- From the beginning of `s` to the end of `t`. -/
def through (s t : Span) : Span := { s with length := t.stop - s.offset }

/-- Whether `t` lies inside `s`. -/
def contains (s t : Span) : Bool := s.offset ≤ t.offset && t.stop ≤ s.stop

end Span

/-- Where something is, as far as it is known. -/
structure Location where
  line : Option Nat := none
  column : Option Nat := none
  length : Option Nat := none
  deriving DecidableEq, Repr, Inhabited

/-- The location of a stretch. -/
def Span.location (s : Span) : Location := ⟨some s.line, some s.column, some s.length⟩

end ConnectorAudit
