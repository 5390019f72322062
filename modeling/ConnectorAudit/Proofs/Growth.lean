import ConnectorAudit.Proofs.Walks

/-!
# The growth of a graph

What holds of a graph however it was built: no id is that of two nodes, and the
ends of every edge are nodes.  One lemma for each of the two changes, and
`Graph.wellFormed_ofChanges` for any sequence of them.

A walk that begins in a node of such a graph stays among its nodes, so that the
search for what can be reached meets all of it (`WellFormed.mem_reachable_iff`);
`Graph.reachable_ofChanges` says so of any graph that changes make and any seeds.
-/

namespace ConnectorAudit

namespace Graph

/-- Each id is that of one node, and edges join nodes. -/
structure WellFormed (g : Graph) : Prop where
  nodup : g.ids.Nodup
  ends : ∀ e ∈ g.edges, e.source ∈ g.ids ∧ e.target ∈ g.ids

variable {g : Graph}

theorem contains_iff {id : String} : g.contains id = true ↔ id ∈ g.ids := by
  simp [contains]

/-- A node is added at the end, unless its id is there. -/
theorem addNode_eq (g : Graph) (n : Node) :
    g.addNode n = if g.contains n.id then g else { g with nodes := g.nodes ++ [n] } := by
  unfold addNode insertNode
  split <;> rfl

/-- An edge is added at the end, behind its two ends. -/
theorem addEdge_eq (g : Graph) (e : Edge) :
    g.addEdge e =
      let h := (g.mention e.source).mention e.target
      if h.edges.contains e then h else { h with edges := h.edges ++ [e] } := by
  simp only [addEdge, insertEdge]
  split <;> rfl

@[simp]
theorem edges_addNode (g : Graph) (n : Node) : (g.addNode n).edges = g.edges := by
  rw [addNode_eq]
  split <;> rfl

/-- The ids are those there were, and that of the node. -/
theorem mem_ids_addNode {n : Node} {id : String} :
    id ∈ (g.addNode n).ids ↔ id ∈ g.ids ∨ id = n.id := by
  rw [addNode_eq]
  split
  · rename_i h
    have hn : n.id ∈ g.ids := contains_iff.1 h
    constructor
    · exact .inl
    · rintro (h | rfl)
      · exact h
      · exact hn
  · simp [ids, eq_comm]

/-- The nodes are those there were, and the one that is added. -/
theorem mem_of_mem_nodes_addNode {m n : Node} (h : m ∈ (g.addNode n).nodes) :
    m ∈ g.nodes ∨ m = n := by
  rw [addNode_eq] at h
  split at h
  · exact .inl h
  · simpa using h

/-- An id that is taken may be mentioned again. -/
theorem mention_of_mem {id : String} (h : id ∈ g.ids) : g.mention id = g := by
  rw [mention, addNode_eq, if_pos (contains_iff.2 h)]

/-- The edges are those there were, and the one that is added. -/
theorem mem_edges_addEdge {d e : Edge} : d ∈ (g.addEdge e).edges ↔ d ∈ g.edges ∨ d = e := by
  simp only [addEdge_eq, mention, edges_addNode]
  split
  · next hmem =>
    have hmem : e ∈ g.edges := by simpa using hmem
    rw [edges_addNode, edges_addNode, iff_self_or]
    rintro rfl
    exact hmem
  · simp

/-- An edge between nodes brings no node. -/
theorem nodes_addEdge_of_mem {e : Edge} (hsource : e.source ∈ g.ids) (htarget : e.target ∈ g.ids) :
    (g.addEdge e).nodes = g.nodes := by
  simp only [addEdge_eq, mention_of_mem hsource, mention_of_mem htarget]
  split <;> rfl

/-- A node keeps a graph well formed. -/
theorem WellFormed.addNode (h : g.WellFormed) (n : Node) : (g.addNode n).WellFormed where
  nodup := by
    rw [addNode_eq]
    split
    · exact h.nodup
    · rename_i hn
      have hids : ids { g with nodes := g.nodes ++ [n] } = g.ids ++ [n.id] := by simp [ids]
      rw [hids, List.nodup_append]
      refine ⟨h.nodup, by simp, ?_⟩
      rintro a ha b hb rfl
      rw [List.mem_singleton] at hb
      exact hn (contains_iff.2 (hb ▸ ha))
  ends e he := by
    rw [edges_addNode] at he
    obtain ⟨hs, ht⟩ := h.ends e he
    exact ⟨mem_ids_addNode.2 (.inl hs), mem_ids_addNode.2 (.inl ht)⟩

/-- An edge keeps a graph well formed. -/
theorem WellFormed.addEdge (h : g.WellFormed) (e : Edge) : (g.addEdge e).WellFormed := by
  have hjoined : ((g.mention e.source).mention e.target).WellFormed :=
    (h.addNode _).addNode _
  have hsource : e.source ∈ ((g.mention e.source).mention e.target).ids :=
    mem_ids_addNode.2 (.inl (mem_ids_addNode.2 (.inr rfl)))
  have htarget : e.target ∈ ((g.mention e.source).mention e.target).ids :=
    mem_ids_addNode.2 (.inr rfl)
  simp only [addEdge_eq]
  split
  · exact hjoined
  · refine ⟨hjoined.nodup, fun d hd => ?_⟩
    rcases List.mem_append.1 hd with hd | hd
    · exact hjoined.ends d hd
    · rw [List.mem_singleton.1 hd]
      exact ⟨hsource, htarget⟩

/-- A change keeps a graph well-formed. -/
theorem WellFormed.apply (h : g.WellFormed) (c : Change) : (g.apply c).WellFormed := by
  cases c with
  | node n => exact h.addNode n
  | edge e => exact h.addEdge e

/-- Every graph that changes make is well-formed. -/
theorem wellFormed_ofChanges (changes : List Change) : (ofChanges changes).WellFormed := by
  have hrun : ∀ (l : List Change) (g : Graph), g.WellFormed →
      (l.foldl Graph.apply g).WellFormed := by
    intro l
    induction l with
    | nil => exact fun g h => h
    | cons c l ih => exact fun g h => ih (g.apply c) (h.apply c)
  exact hrun changes {} ⟨List.nodup_nil, by simp⟩

/-- No edge of a well-formed graph ends in nothing. -/
theorem WellFormed.dangling_eq_nil (h : g.WellFormed) : g.dangling = [] := by
  refine List.filter_eq_nil_iff.2 fun e he => ?_
  obtain ⟨hsource, htarget⟩ := h.ends e he
  simp [contains_iff.2 hsource, contains_iff.2 htarget]

/-- Some changes make the graph. -/
def Built (g : Graph) : Prop := ∃ changes, ofChanges changes = g

/-- A graph that is built by changes is well formed. -/
theorem Built.wellFormed (h : g.Built) : g.WellFormed := by
  obtain ⟨changes, rfl⟩ := h
  exact wellFormed_ofChanges changes

/-- A walk stays among the nodes. -/
theorem WellFormed.mem_of_joins (h : g.WellFormed) {a b : String} (hab : g.Joins a b) :
    a ∈ g.ids ∧ b ∈ g.ids := by
  obtain ⟨e, he, rfl, rfl⟩ := hab
  exact h.ends e he

/-- The searches read the successors of a node in its row. -/
theorem WellFormed.next_adjacency (h : g.WellFormed) : g.adjacency.next = g.successors := by
  funext id
  rw [Adjacency.next, lookup_adjacency]
  split
  · rfl
  · next hid =>
    refine (List.eq_nil_iff_forall_not_mem.2 fun b hb => hid ?_).symm
    exact (h.mem_of_joins (mem_successors_iff.1 hb)).1

/-- What can be reached from some seeds is what walks lead to from those that are nodes. -/
theorem WellFormed.mem_reachable_iff (h : g.WellFormed) {seeds : List String} {b : String} :
    b ∈ g.reachable seeds ↔ ∃ a ∈ seeds, a ∈ g.ids ∧ g.Reaches a b := by
  have hstep : ∀ a b, b ∈ g.successors a ∧ b ∈ g.ids ↔ g.Joins a b := by
    intro a b
    rw [mem_successors_iff, and_iff_left_iff_imp]
    exact fun hab => (h.mem_of_joins hab).2
  simp only [reachable, h.next_adjacency, mem_reach_iff, LeadsIn, Reaches, hstep, List.mem_filter,
    contains_iff, and_assoc, and_self_left]

/-- What is reachable comes once. -/
theorem WellFormed.nodup_reachable (h : g.WellFormed) (seeds : List String) :
    (g.reachable seeds).Nodup :=
  nodup_reach h.nodup

/-- **Reachability.** From any seeds, repeated or absent ones among them, what can be reached is
exactly the nodes to which a walk leads from a seed that is a node, each listed once. -/
theorem reachable_ofChanges (changes : List Change) (seeds : List String) :
    ((ofChanges changes).reachable seeds).Nodup ∧
      ∀ id, id ∈ (ofChanges changes).reachable seeds ↔
        id ∈ (ofChanges changes).ids ∧
          ∃ seed ∈ seeds, seed ∈ (ofChanges changes).ids ∧
            (ofChanges changes).Reaches seed id := by
  have h : (ofChanges changes).WellFormed := wellFormed_ofChanges changes
  refine ⟨h.nodup_reachable seeds, fun id => ?_⟩
  rw [← h.mem_reachable_iff, iff_and_self]
  exact fun hid => mem_of_mem_reach hid

end Graph

end ConnectorAudit
