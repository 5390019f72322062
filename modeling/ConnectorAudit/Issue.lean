import ConnectorAudit.Text.Span
import ConnectorAudit.Text.Table

/-!
# Issues

What an audit finds: how grave it is, a code, a text for people, where it is,
and what it is about.
-/

namespace ConnectorAudit

/-- How grave an issue is. -/
inductive Severity where
  | info
  | warning
  | error
  deriving DecidableEq, Repr

def Severity.name : Severity → String
  | info => "info"
  | warning => "warning"
  | error => "error"

/-- A detail of an issue or of a part of a document. -/
inductive Detail where
  | text (value : String)
  | texts (values : List String)
  deriving DecidableEq, Repr

/-- Details under their names. -/
abbrev Details := Table Detail

/-- Something found about a document. -/
structure Issue where
  severity : Severity
  code : String
  message : String
  loc : Location := {}
  context : Details := .empty
  deriving DecidableEq

namespace Issue

/-- The issue, placed somewhere. -/
def located (i : Issue) (loc : Location) : Issue := { i with loc }

/-- The issue with a text added to what it is about. -/
def about (i : Issue) (name value : String) : Issue :=
  { i with context := i.context.insert name (.text value) }

/-- The issue with a list of texts added to what it is about. -/
def aboutAll (i : Issue) (name : String) (values : List String) : Issue :=
  { i with context := i.context.insert name (.texts values) }

def info (code message : String) : Issue := { severity := .info, code, message }

def warning (code message : String) : Issue := { severity := .warning, code, message }

def error (code message : String) : Issue := { severity := .error, code, message }

end Issue

/-! ## Logs -/

/-- Issues in order, with a cap on the warnings among them. -/
structure IssueLog where
  /-- How many warnings are kept. -/
  cap : Nat
  /-- The issues kept. -/
  issues : Array Issue := #[]
  /-- The warnings among them. -/
  warnings : Nat := 0
  /-- The warnings that were not kept. -/
  suppressed : Nat := 0

namespace IssueLog

/-- A warning beyond the cap is only counted; all else is kept. -/
def push (log : IssueLog) (i : Issue) : IssueLog :=
  if i.severity = .warning then
    if log.cap ≤ log.warnings then { log with suppressed := log.suppressed + 1 }
    else { log with issues := log.issues.push i, warnings := log.warnings + 1 }
  else { log with issues := log.issues.push i }

def append (log : IssueLog) (issues : List Issue) : IssueLog := issues.foldl push log

end IssueLog

end ConnectorAudit
