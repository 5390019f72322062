import ConnectorAudit.Fragments
import ConnectorAudit.Outline.Build
import ConnectorAudit.Report
import ConnectorAudit.Tree.Parse

/-!
# Audits

The result of an audit: the outline of a document, the issues, the call graph and
the report on it.  A source that does not parse is still audited: its outline is
then made of the fragments that can be found, its one issue says why it does not
parse, and there is no call graph.
-/

namespace ConnectorAudit

/-- How many warnings are kept if nothing else is asked for. -/
def defaultMaxWarnings : Nat := 10000

/-- How an audit is to be made. -/
structure Settings where
  /-- The name of the file, kept in the outline. -/
  filename : String := "(input)"
  /-- How many warnings are kept. -/
  maxWarnings : Nat := defaultMaxWarnings
  limits : PathLimits := {}

structure Audit where
  root : Outline
  issues : List Issue
  graph : Graph
  stats : Table Nat
  /-- Whether the source did not parse. -/
  salvaged : Bool
  report : Report

namespace Audit

/-- The name of the outline of a source that does not parse. -/
def salvagedName : String := "(salvaged)"

def countSeverity (issues : List Issue) (s : Severity) : Nat :=
  (issues.filter (·.severity == s)).length

/-- An audit, with its issues and its graph counted. -/
def assemble (root : Outline) (issues : List Issue) (graph : Graph) (stats : Table Nat)
    (salvaged : Bool) (report : Report) : Audit :=
  let stats := [Severity.info, .warning, .error].foldl
    (fun stats s => stats.insert ("issues_" ++ s.name) (countSeverity issues s)) stats
  let stats := (stats.insert "graph_nodes" graph.nodes.length).insert "graph_edges"
    graph.edges.length
  { root, issues, graph, stats, salvaged, report }

/-- The survey that the audit of a parsed source begins with. -/
def newSurvey (parsed : Parsed) (cap : Nat) : Survey :=
  { Survey.ofCap cap with counts := Table.empty.insert "parse_notes" parsed.notes.length }

def ofParsed (parsed : Parsed) (settings : Settings) : Audit :=
  let (root, survey) := (Outline.survey settings.filename parsed.tree parsed.tree.document?).run
    (newSurvey parsed settings.maxWarnings)
  let log := survey.log.append (Report.issues survey)
  let stats := survey.counts.insert "suppressed_warnings" log.suppressed
  assemble root log.issues.toList survey.graph stats false (.ofSurvey survey settings.limits)

def syntaxIssue (failure : ParseFailure) (faults : List Fault) : Issue :=
  let (line, column) := failure.error.place
  ((Issue.error "syntax_error" ("Structural parse failed, salvaged what a lexical scan could find: "
    ++ failure.error.message)).located { line, column }).aboutAll "diagnostics"
      (failure.notes ++ [failure.error.message] ++ faults.map Fault.message)

/-- The outline of a section of which only fragments are known. -/
def fragmentOutline (f : Fragments) (s : Section) (group kind : Outline.Kind)
    (entries : List Fragment) : Outline :=
  { kind := group
    name := s.key
    loc := (f.rootKeys.lookup s.key).getD {}
    children := entries.map fun e => { kind, name := e.name, loc := e.loc } }

/-- The audit of a source that does not parse. -/
def ofFailure (source : String) (failure : ParseFailure) (settings : Settings) : Audit :=
  let f := Fragments.ofSource source
  let root : Outline :=
    { kind := .connector
      name := salvagedName
      children := [
        fragmentOutline f .actions .actions .action f.actions,
        fragmentOutline f .triggers .triggers .trigger f.triggers,
        fragmentOutline f .methods .methods .method f.methods] }
  let root := (root.withText "filename" settings.filename).withTexts "root_keys"
    ((f.rootKeys.map Prod.fst).mergeSort (· ≤ ·))
  let stats := Table.ofList [("actions", f.actions.length), ("triggers", f.triggers.length),
    ("methods", f.methods.length), ("suppressed_warnings", 0)]
  assemble root [syntaxIssue failure f.faults] {} stats true {}

def ofSource (source : String) (settings : Settings) : Audit :=
  match Parsed.ofSource source with
  | .ok parsed => ofParsed parsed settings
  | .error failure => ofFailure source failure settings

end Audit

end ConnectorAudit
