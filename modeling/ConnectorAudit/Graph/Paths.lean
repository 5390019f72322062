import Std.Data.HashSet
import ConnectorAudit.Graph

/-!
# Paths

The paths from an entrypoint, followed until they come back to a node they have
been through, or to a node that leads nowhere.  A limit on the depth cuts a path
short, and a limit on their number ends the search; either makes the result a
truncated one.
-/

namespace ConnectorAudit

/-- How far paths are followed, and how many. -/
structure PathLimits where
  depth : Nat := 60
  paths : Nat := 10000
  deriving DecidableEq, Repr

/-- The paths found. -/
structure PathSet where
  paths : Array (List String) := #[]
  /-- Whether a limit cut something off. -/
  truncated : Bool := false

/-- A walk that goes on from a node to all that follow it, one after the other. -/
structure PathWalk where
  /-- The nodes from the entrypoint to the node that the walk is at. -/
  path : Array String := #[]
  /-- The nodes that the walk has gone on from and not come back to. -/
  onPath : List String := []
  found : PathSet := {}

namespace PathWalk

/-- Adds the path to those found. -/
def record (w : PathWalk) : PathWalk :=
  { w with found.paths := w.found.paths.push w.path.toList }

/-- Notes that a limit cut something off. -/
def truncate (w : PathWalk) : PathWalk := { w with found.truncated := true }

/-- Goes to a node that is `depth` edges behind the entrypoint, follows all paths on from it, and
comes back.  A path ends where it comes back to a node, where no edge leads on and at the limit on
the depth; the limit on their number is looked at before a node is entered. -/
def visit (next : String → List String) (limits : PathLimits) (depth : Nat) (node : String)
    (w : PathWalk) : PathWalk :=
  if limits.paths ≤ w.found.paths.size then w.truncate
  else
    let successors := next node
    let w := { w with path := w.path.push node }
    let w :=
      if w.onPath.contains node || successors.isEmpty then w.record
      else if limits.depth ≤ depth then w.truncate.record
      else
        let w := { w with onPath := w.onPath.insert node }
        let w := successors.foldl (fun w node => w.visit next limits (depth + 1) node) w
        { w with onPath := w.onPath.erase node }
    { w with path := w.path.pop }
termination_by limits.depth - depth

end PathWalk

/-- What the paths of an entrypoint amount to. -/
@[ext]
structure Complexity where
  /-- Nodes on the paths. -/
  nodes : Nat := 0
  /-- Edges on the paths, parallel ones counted once. -/
  edges : Nat := 0
  /-- Edges of the longest path. -/
  maxDepth : Nat := 0
  paths : Nat := 0
  /-- Requests on the paths. -/
  httpNodes : Nat := 0
  truncated : Bool := false
  deriving DecidableEq, Repr

/-- The pairs of neighbours in a list. -/
def steps {α : Type} (path : List α) : List (α × α) := path.zip path.tail

namespace Graph

/-- The paths from an entrypoint; none if it has no row. -/
def Adjacency.paths (rows : Adjacency) (entry : String) (limits : PathLimits) : PathSet :=
  if (rows.lookup entry).isSome then (PathWalk.visit rows.next limits 0 entry {}).found else {}

/-- The paths from an entrypoint; none if it is no node. -/
def paths (g : Graph) (entry : String) (limits : PathLimits) : PathSet :=
  g.adjacency.paths entry limits

/-- What some paths amount to. -/
def complexity (g : Graph) (found : PathSet) : Complexity :=
  let paths := found.paths.toList
  let nodes := Std.HashSet.ofList paths.flatten
  let edges := Std.HashSet.ofList (paths.flatMap steps)
  { nodes := nodes.size
    edges := edges.size
    maxDepth := (paths.map (·.length - 1)).foldl max 0
    paths := paths.length
    httpNodes := (nodes.toList.filter fun id => (g.node? id).any (·.kind == .http)).length
    truncated := found.truncated }

end Graph

end ConnectorAudit
