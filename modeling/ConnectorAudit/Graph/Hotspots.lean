import ConnectorAudit.Graph

/-!
# Hotspots

The nodes with the most callers or callees.  A node scores the larger of the two
numbers, and the hotspots are the nodes with one of the ten highest scores.
-/

namespace ConnectorAudit

/-- How many different scores make a hotspot. -/
def hotspotTiers : Nat := 10

/-- A node with its callers and callees counted. -/
structure Hotspot where
  id : String
  fanIn : Nat
  fanOut : Nat
  deriving DecidableEq, Repr

namespace Hotspot

/-- The larger of the two numbers. -/
def score (h : Hotspot) : Nat := max h.fanIn h.fanOut

/-- Higher scores first, and equal ones by id. -/
def le (h k : Hotspot) : Bool := k.score < h.score || (h.score == k.score && h.id ≤ k.id)

end Hotspot

namespace Graph

/-- How often each node is listed in the rows of an adjacency. -/
def Adjacency.fanIn (rows : Adjacency) : Table Nat :=
  rows.foldl (fun counts row => row.2.foldl Table.count counts) .empty

/-- Each node with its callers and callees counted. -/
def fans (g : Graph) : List Hotspot :=
  let rows := g.adjacency
  let fanIn := rows.fanIn
  rows.map fun row => ⟨row.1, (fanIn.get? row.1).getD 0, row.2.length⟩

/-- The nodes with the highest scores, in order. -/
def hotspots (g : Graph) : List Hotspot :=
  let scored := g.fans.filter (0 < ·.score)
  let scores := ((scored.map Hotspot.score).mergeSort (· ≥ ·)).eraseReps
  match (scores.take hotspotTiers).getLast? with
  | none => []
  | some cutoff => (scored.filter (cutoff ≤ ·.score)).mergeSort Hotspot.le

end Graph

end ConnectorAudit
