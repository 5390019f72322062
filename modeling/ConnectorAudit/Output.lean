import ConnectorAudit.Audit.Events
import ConnectorAudit.Audit.Summary
import ConnectorAudit.Graph.Dot

/-!
# Outputs

The formats in which an audit can be written, and the files it is written to.
-/

namespace ConnectorAudit

inductive Format where
  /-- All of it, as JSON. -/
  | json
  /-- The summary. -/
  | md
  /-- The call graph. -/
  | dot
  /-- The events. -/
  | ndjson
  deriving DecidableEq, Repr

namespace Format

def all : List Format := [json, md, dot, ndjson]

def name : Format → String
  | json => "json"
  | md => "md"
  | dot => "dot"
  | ndjson => "ndjson"

def ofName? (name : String) : Option Format := all.find? (·.name == name)

/-- What the name of a file has between its base and its extension. -/
def stem : Format → String
  | json => ".ir"
  | md => ".summary"
  | dot => ".graph"
  | ndjson => ".events"

def extension : Format → String
  | json => ".json"
  | md => ".md"
  | dot => ".dot"
  | ndjson => ".ndjson"

end Format

/-! ## File names -/

namespace FileName

/-- Whether a character may stand in the name of a file. -/
def isSafe (c : Char) : Bool := c.isAlphanum || c == '_' || c == '-' || c == '.'

/-- The characters with each run of unsafe ones made an underscore; `inRun` says whether
such a run has begun. -/
def safeChars (inRun : Bool) : List Char → List Char
  | [] => []
  | c :: cs =>
    if isSafe c then c :: safeChars false cs
    else if inRun then safeChars true cs
    else '_' :: safeChars true cs

/-- The name of a file: the base with each run of unsafe characters made an underscore, and
the extension as it is. -/
def safe (base extension : String) : String :=
  String.ofList (safeChars false base.toList) ++ extension

end FileName

/-- The name of the file that a format is written to. -/
def Format.fileName (f : Format) (base : String) : String :=
  FileName.safe (base ++ f.stem) f.extension

/-! ## Texts -/

/-- How results are to be written. -/
structure OutputOptions where
  formats : List Format := Format.all
  /-- What the names of the files begin with. -/
  base : String := "connector"
  /-- Whether the JSON text is laid out over lines. -/
  pretty : Bool := true
  /-- The name of the drawn graph. -/
  graphName : String := "Connector"
  deriving DecidableEq, Repr

/-- The text of an audit in a format. -/
def Audit.render (a : Audit) (o : OutputOptions) : Format → String
  | .json => a.jsonText o.pretty
  | .md => a.summary
  | .dot => a.graph.dot o.graphName
  | .ndjson => a.eventText

end ConnectorAudit
