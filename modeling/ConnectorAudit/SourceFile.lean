import ConnectorAudit.Path
import ConnectorAudit.Text.Lines

/-!
# Source files

A source with the path it came from.
-/

namespace ConnectorAudit

/-- A source with the path it came from. -/
structure SourceFile where
  path : String
  text : String
  deriving DecidableEq, Repr

namespace SourceFile

/-- The name under which a source is shown: the last part of its path, or the whole path if
that part names no file. -/
def displayName (f : SourceFile) : String :=
  match ((Path.parts f.path).filter fun part => !Path.isIdle part).getLast? with
  | none => f.path
  | some part => if part = ".." then f.path else part

/-- The number of lines of the source. -/
def lineCount (f : SourceFile) : Nat := Text.lineCount f.text

end SourceFile

end ConnectorAudit
