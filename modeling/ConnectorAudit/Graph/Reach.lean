import ConnectorAudit.Graph

/-!
# Reachability

What can be reached from some nodes along the edges.  The search keeps the list
of nodes that it has not met; a node is taken off that list when it is met, and
a node that is not on it is passed over, so every step shortens the list or the
queue.
-/

namespace ConnectorAudit

/-- A fresh item is one fewer to meet. -/
theorem length_erase_lt {α : Type} [BEq α] [LawfulBEq α] {a : α} {l : List α} (h : a ∈ l) :
    (l.erase a).length < l.length := by
  rw [List.length_erase_of_mem h]
  have := List.length_pos_of_mem h
  omega

/-- The items met from a queue along `next`, in the order of a breadth-first search; `fresh`
holds the items that may still be met, and only such items are put into the queue. -/
def reach {α : Type} [BEq α] [LawfulBEq α] (next : α → List α) (fresh queue : List α) : List α :=
  match queue with
  | [] => []
  | a :: queue =>
    if h : a ∈ fresh then
      have := length_erase_lt h
      a :: reach next (fresh.erase a) (queue ++ (next a).filter (fresh.erase a).contains)
    else reach next fresh queue
termination_by (fresh.length, queue.length)

namespace Graph

/-- The nodes that can be reached from the seeds, the seeds themselves included; seeds that
are no nodes are passed over. -/
def reachable (g : Graph) (seeds : List String) : List String :=
  reach g.adjacency.next g.ids (seeds.filter g.contains)

end Graph

end ConnectorAudit
