import ConnectorAudit.Audit
import ConnectorAudit.Text.Lines

/-!
# Summaries

The result of an audit as a text for people, in Markdown.
-/

namespace ConnectorAudit

/-- Where something is, in words. -/
def Location.describe (loc : Location) : String :=
  loc.line.elim "unknown loc" fun line => s!"line {line}"

namespace Summary

def row (cells : List String) : String := "| " ++ " | ".intercalate cells ++ " |"

/-- The rule under the heads of a table. -/
def rule (columns : Nat) : String := "|" ++ String.join (List.replicate columns "---|")

/-- A part with a head, closed by an empty line; nothing for no lines. -/
def part (head : List String) (lines : List String) : List String :=
  if lines.isEmpty then [] else head ++ lines ++ [""]

/-- The parts of a kind, in the order of their names. -/
def sorted (root : Outline) (kind : Outline.Kind) : List Outline :=
  (root.descendants kind).mergeSort (·.name ≤ ·.name)

/-- The lines on parts of an outline. -/
def parts (title : String) (nodes : List Outline) : List String :=
  part ["## " ++ title] (nodes.map fun o => s!"- **{o.name}** ({o.loc.describe})")

def issue (i : Issue) : String :=
  s!"- [{i.severity.name}] **{i.code}** at {i.loc.describe}: {i.message}"

def issues (issues : List Issue) : List String :=
  part [s!"## Issues ({issues.length})"] (issues.map issue)

/-- The row on a hotspot. -/
def hotspot (h : Hotspot) : String :=
  row ["`" ++ h.id ++ "`", h.fanIn.repr, h.fanOut.repr, h.score.repr]

/-- The row on an entrypoint. -/
def complexity (entry : String × Complexity) : String :=
  let (id, c) := entry
  row ["`" ++ id ++ "`", c.nodes.repr, c.edges.repr, c.maxDepth.repr, c.paths.repr,
    c.httpNodes.repr, if c.truncated then "yes" else "no"]

/-- The lines on the call graph; none if it is empty. -/
def callGraph (graph : Graph) (report : Report) : List String :=
  if graph.nodes.isEmpty then []
  else
    ["## Call graph",
      s!"{graph.nodes.length} nodes, {graph.edges.length} edges, " ++
        s!"{report.entrypoints.length} entrypoints",
      ""] ++
    part ["### Cycles"] (report.cycles.map fun cycle => "- " ++ " -> ".intercalate cycle) ++
    part ["### Hotspots", row ["Node", "Fan-in", "Fan-out", "Score"], rule 4]
      (report.hotspots.map hotspot) ++
    part ["### Complexity",
        row ["Entrypoint", "Nodes", "Edges", "Max depth", "Paths", "HTTP", "Truncated"], rule 7]
      (report.complexity.entries.map complexity)

end Summary

namespace Outline

/-- A text among the details. -/
def text? (o : Outline) (name : String) : Option String :=
  match o.details.get? name with
  | some (.text s) => some s
  | _ => none

/-- A list of texts among the details; empty if it is not there. -/
def texts (o : Outline) (name : String) : List String :=
  match o.details.get? name with
  | some (.texts ss) => ss
  | _ => []

end Outline

namespace Audit

def summaryLines (a : Audit) : List String :=
  let keys := ", ".intercalate (a.root.texts "root_keys")
  let actions := Summary.sorted a.root .action
  let triggers := Summary.sorted a.root .trigger
  let methods := Summary.sorted a.root .method
  ["# " ++ a.root.name, ""] ++
    (a.root.text? "filename").elim [] (fun name => [s!"File: `{name}`", ""]) ++
    ["Root keys: " ++ keys, "",
      s!"Counts: **{actions.length}** actions, **{triggers.length}** triggers, " ++
        s!"**{methods.length}** methods", ""] ++
    (if a.salvaged then
      ["> Structural parsing failed. Names below come from a lexical scan; " ++
        "no call graph was built.", ""]
    else []) ++
    Summary.parts "Actions" actions ++ Summary.parts "Triggers" triggers ++
    Summary.parts "Methods" methods ++ Summary.issues a.issues ++
    Summary.callGraph a.graph a.report ++
    ["## Notes", "- This summary is generated statically from source; no code was executed."]

def summary (a : Audit) : String := Text.ofLines a.summaryLines

end Audit

end ConnectorAudit
