import ConnectorAudit.Text.Table

/-!
# Call graphs

Nodes known by their ids, and edges between them that carry details.  Both are
kept in the order in which they were first mentioned, and neither is ever
repeated: the first description of a node stands, and an edge is the same as
another only if its details are the same too.  An edge brings the nodes it
joins, so that no edge ends in nothing.
-/

namespace ConnectorAudit

/-- What a node stands for. -/
inductive Graph.Kind where
  | action
  | trigger
  | method
  /-- A callable of the connection, the test and the like. -/
  | lambda
  /-- A request. -/
  | http
  /-- A node that an edge brought before anything described it. -/
  | other
  deriving DecidableEq, Repr

def Graph.Kind.name : Graph.Kind → String
  | action => "action"
  | trigger => "trigger"
  | method => "method"
  | lambda => "lambda"
  | http => "http"
  | other => "other"

structure Graph.Node where
  id : String
  label : String
  kind : Graph.Kind
  deriving DecidableEq, Repr

structure Graph.Edge where
  source : String
  target : String
  details : Table String := .empty
  deriving DecidableEq

/-- Nodes and edges, each in the order of first mention. -/
structure Graph where
  nodes : List Graph.Node := []
  edges : List Graph.Edge := []
  deriving DecidableEq

namespace Graph

def ids (g : Graph) : List String := g.nodes.map Node.id

def node? (g : Graph) (id : String) : Option Node := g.nodes.find? (·.id == id)

def contains (g : Graph) (id : String) : Bool := g.ids.contains id

/-- Adds a node, unless its id is taken, and tells whether it did. -/
def insertNode (g : Graph) (n : Node) : Graph × Bool :=
  if g.contains n.id then (g, false) else ({ g with nodes := g.nodes ++ [n] }, true)

def addNode (g : Graph) (n : Node) : Graph := (g.insertNode n).1

/-- Adds a node known by its id alone, unless the id is taken. -/
def mention (g : Graph) (id : String) : Graph := g.addNode ⟨id, id, .other⟩

/-- Adds the nodes that an edge joins and the edge, unless it is there, and tells whether the
edge is a new one. -/
def insertEdge (g : Graph) (e : Edge) : Graph × Bool :=
  let g := (g.mention e.source).mention e.target
  if g.edges.contains e then (g, false) else ({ g with edges := g.edges ++ [e] }, true)

def addEdge (g : Graph) (e : Edge) : Graph := (g.insertEdge e).1

/-- Something that is added to a graph. -/
inductive Change where
  | node (n : Node)
  | edge (e : Edge)

/-- The graph after a change, and whether the change added its node or its edge. -/
def insert (g : Graph) : Change → Graph × Bool
  | .node n => g.insertNode n
  | .edge e => g.insertEdge e

/-- What a change tells: whether it adds its node or its edge. -/
def isNew (g : Graph) (c : Change) : Bool := (g.insert c).2

def apply (g : Graph) (c : Change) : Graph := (g.insert c).1

/-- The graph that changes make one after the other. -/
def ofChanges (changes : List Change) : Graph := changes.foldl apply {}

/-- The edges that end in nothing. -/
def dangling (g : Graph) : List Edge :=
  g.edges.filter fun e => !g.contains e.source || !g.contains e.target

/-- The nodes to which an edge leads from `id`, each once, in the order of the edges. -/
def successors (g : Graph) (id : String) : List String :=
  ((g.edges.filter (·.source == id)).map Edge.target).eraseDups

/-- Nodes, each with the nodes to which its edges lead. -/
abbrev Adjacency := List (String × List String)

/-- Notes an edge in the row of its source, unless its target is there. -/
def Adjacency.note (rows : Adjacency) (e : Edge) : Adjacency :=
  rows.map fun row =>
    if row.1 == e.source && !row.2.contains e.target then (row.1, row.2 ++ [e.target]) else row

/-- The row of a node; empty if it has none. -/
def Adjacency.next (rows : Adjacency) (id : String) : List String := (rows.lookup id).getD []

/-- Each node in order with its successors, found by going through the edges once. -/
def adjacency (g : Graph) : Adjacency := g.edges.foldl Adjacency.note (g.ids.map (·, []))

end Graph

end ConnectorAudit
