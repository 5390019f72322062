import ConnectorAudit.Audit
import ConnectorAudit.Json

/-!
# Audits as JSON

The whole result of an audit as one JSON value.  Details and counts are written
in the order of their names, nodes and edges in the order of the graph.
-/

namespace ConnectorAudit

open Json (Value)

def Table.toJson {α : Type} (f : α → Value) (t : Table α) : Value :=
  .object (t.entries.map fun (name, value) => (name, f value))

/-- An object of what is known. -/
def Location.toJson (loc : Location) : Value :=
  .object ([("line", loc.line), ("column", loc.column), ("length", loc.length)].filterMap
    fun (name, n) => n.map fun n => (name, .number n))

/-- A detail as a string or an array of strings. -/
def Detail.toJson : Detail → Value
  | .text s => .string s
  | .texts ss => .strings ss

def Issue.fields (i : Issue) : List (String × Value) := [
  ("severity", .string i.severity.name),
  ("code", .string i.code),
  ("message", .string i.message),
  ("loc", i.loc.toJson),
  ("context", i.context.toJson Detail.toJson)]

def Issue.toJson (i : Issue) : Value := .object i.fields

namespace Graph

/-- A node as a field under its id. -/
def Node.field (n : Node) : String × Value :=
  (n.id, .object [("label", .string n.label), ("kind", .string n.kind.name)])

/-- An edge as an array of its ends and its details. -/
def Edge.toJson (e : Edge) : Value :=
  .array [.string e.source, .string e.target, e.details.toJson .string]

def toJson (g : Graph) : Value := .object [
  ("nodes", .object (g.nodes.map Node.field)),
  ("edges", .ofList Edge.toJson g.edges)]

end Graph

mutual
def Outline.toJson : Outline → Value
  | ⟨kind, name, loc, details, children⟩ => .object [
      ("kind", .string kind.name),
      ("name", .string name),
      ("loc", loc.toJson),
      ("meta", details.toJson Detail.toJson),
      ("children", .array (Outline.toJsonAll children))]
def Outline.toJsonAll : List Outline → List Value
  | [] => []
  | o :: os => o.toJson :: toJsonAll os
end

def Hotspot.toJson (h : Hotspot) : Value := .object [
  ("id", .string h.id),
  ("fan_in", .number h.fanIn),
  ("fan_out", .number h.fanOut),
  ("score", .number h.score)]

def Complexity.toJson (c : Complexity) : Value := .object [
  ("nodes", .number c.nodes),
  ("edges", .number c.edges),
  ("max_depth", .number c.maxDepth),
  ("paths", .number c.paths),
  ("http_nodes", .number c.httpNodes),
  ("truncated", .bool c.truncated)]

def Report.toJson (r : Report) : Value := .object [
  ("entrypoints", .strings r.entrypoints),
  ("cycles", .ofList .strings r.cycles),
  ("hotspots", .ofList Hotspot.toJson r.hotspots),
  ("unreachable", .strings r.unreachable),
  ("complexity", r.complexity.toJson Complexity.toJson)]

namespace Audit

def toJson (a : Audit) : Value := .object [
  ("root", a.root.toJson),
  ("issues", .ofList Issue.toJson a.issues),
  ("graph", a.graph.toJson),
  ("stats", a.stats.toJson .number),
  ("salvaged", .bool a.salvaged),
  ("analysis", a.report.toJson)]

/-- The JSON text of an audit, laid out over lines or compact; a line feed ends it. -/
def jsonText (a : Audit) (pretty : Bool) : String :=
  (if pretty then a.toJson.pretty else a.toJson.compact) ++ "\n"

end Audit

end ConnectorAudit
