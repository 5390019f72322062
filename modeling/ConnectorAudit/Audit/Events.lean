import ConnectorAudit.Audit.Json
import ConnectorAudit.Text.Lines

/-!
# Events

The result of an audit as a list of events, for tools that read line by line: the
issues, then the calls of requests.
-/

namespace ConnectorAudit

open Json (Value)

inductive Event where
  | issue (i : Issue)
  /-- A request that some code makes. -/
  | httpCall (e : Graph.Edge)

/-- An object that begins with the type of the event. -/
def Event.toJson : Event → Value
  | issue i => .object (("type", .string "issue") :: i.fields)
  | httpCall e => .object [
      ("type", .string "http_call"),
      ("from", .string e.source),
      ("to", .string e.target),
      ("meta", e.details.toJson .string)]

/-- The text of an event, on one line. -/
def Event.text (e : Event) : String := e.toJson.compact

/-- The edges that lead to a request. -/
def Graph.httpEdges (g : Graph) : List Edge :=
  g.edges.filter fun e => (g.node? e.target).any (·.kind == .http)

namespace Audit

/-- The events of an audit. -/
def events (a : Audit) : List Event :=
  a.issues.map .issue ++ a.graph.httpEdges.map .httpCall

/-- The events as text, one on each line as `write` writes it. -/
def eventTextBy (write : Event → String) (a : Audit) : String :=
  Text.ofLines (a.events.map write)

/-- The events as JSON text, one on each line. -/
def eventText (a : Audit) : String := a.eventTextBy Event.text

end Audit

end ConnectorAudit
