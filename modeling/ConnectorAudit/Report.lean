import ConnectorAudit.Graph.Components
import ConnectorAudit.Graph.Hotspots
import ConnectorAudit.Graph.Paths
import ConnectorAudit.Graph.Reach
import ConnectorAudit.Survey

/-!
# Reports

What a finished survey tells about the calls of a document: methods that are
called and not declared, declared and not called, called in circles, or called
only from code that nothing reaches; and how much each entrypoint sets in motion.
-/

namespace ConnectorAudit

/-- What the graph of a document amounts to. -/
structure Report where
  /-- The entrypoints that are nodes. -/
  entrypoints : List String := []
  cycles : List (List String) := []
  hotspots : List Hotspot := []
  /-- The nodes that no entrypoint reaches. -/
  unreachable : List String := []
  /-- What each entrypoint sets in motion. -/
  complexity : Table Complexity := .empty

namespace Report

/-- Calls of methods that are not declared; the same call at the same place counts once. -/
def undefinedMethods (declared : List String) (callSites : List CallSite) : List Issue :=
  (callSites.filter fun site => !declared.contains site.method).eraseDups.map fun site =>
    ((Issue.warning "undefined_method"
      s!"Method `{site.method}` is called but not defined").located site.loc
        |>.about "method" site.method).about "caller" site.owner

/-- Methods that are declared and never called, in order. -/
def unusedMethods (declared : List String) (callSites : List CallSite) : List Issue :=
  let unused := (sortedDistinct declared).filter fun name =>
    name != dynamicName && !callSites.any (·.method == name)
  unused.map fun name =>
    (Issue.info "unused_method" s!"Method `{name}` is defined but never called").about
      "method" name

/-- A warning for each circle of calls. -/
def cycleIssues (cycles : List (List String)) : List Issue :=
  cycles.map fun cycle =>
    let names := " -> ".intercalate cycle
    (Issue.warning "method_cycle" s!"Call cycle through {names}").aboutAll "nodes" cycle

/-- Declared methods that are called, but only from code that no entrypoint reaches, in
order. -/
def unreachableMethods (graph : Graph) (declared : List String) (callSites : List CallSite)
    (reached : List String) : List Issue :=
  let unreached := (sortedDistinct declared).filter fun name =>
    callSites.any (·.method == name) && graph.contains (methodId name) &&
      !reached.contains (methodId name)
  unreached.map fun name =>
    (Issue.info "unreachable_method"
      s!"Method `{name}` is only called from code no entrypoint reaches").about "method" name

/-- What each entrypoint sets in motion. -/
def complexities (graph : Graph) (entrypoints : List String) (limits : PathLimits) :
    Table Complexity :=
  let rows := graph.adjacency
  .ofList (entrypoints.map fun entry => (entry, graph.complexity (rows.paths entry limits)))

def ofSurvey (s : Survey) (limits : PathLimits) : Report :=
  let entrypoints := s.entrypoints.filter s.graph.contains
  let reached := s.graph.reachable entrypoints
  { entrypoints
    cycles := s.graph.cycles
    hotspots := s.graph.hotspots
    unreachable := s.graph.ids.filter fun id => !reached.contains id
    complexity := complexities s.graph entrypoints limits }

def issues (s : Survey) : List Issue :=
  let reached := s.graph.reachable (s.entrypoints.filter s.graph.contains)
  undefinedMethods s.methods s.callSites ++ unusedMethods s.methods s.callSites ++
    cycleIssues s.graph.cycles ++ unreachableMethods s.graph s.methods s.callSites reached

end Report

end ConnectorAudit
