/-!
# Lines

Text made of lines.
-/

namespace ConnectorAudit

/-- The text of some lines, each ended by a line feed. -/
def Text.ofLines (lines : List String) : String := String.join (lines.map (· ++ "\n"))

/-- The number of lines of a text; a line feed at its end begins no further line. -/
def Text.lineCount (text : String) : Nat :=
  let chars := text.toList
  let ended := chars.count '\n'
  if chars.getLast?.all (· == '\n') then ended else ended + 1

end ConnectorAudit
