import ConnectorAudit.Proofs.Growth

/-!
# First mentions

A graph keeps what was mentioned first.  The mentions of a sequence of changes
are worked out from the changes alone: a node mentions itself, and an edge the
two nodes it joins, known by their ids.  The nodes of the graph that the changes
make are the first mentions of their ids, and its edges are the edges added, each
where it was first added.

* `firstValues_eraseDups`: erasing duplicates leaves first occurrences in order;
* `Graph.Records.apply`, `Graph.records_ofChanges`: one change, and all of them;
* `Graph.first_mentions`: what that says of nodes, edges and successors.
-/

namespace ConnectorAudit

/-! ## first occurrences -/

/-- The values that `f` takes on a list, each once, in the order in which they are first
taken. -/
structure FirstValues {α β : Type} [BEq β] (f : α → β) (l : List α) (values : List β) : Prop where
  nodup : values.Nodup
  mem_iff : ∀ v, v ∈ values ↔ ∃ a ∈ l, f a = v
  ordered : values.Pairwise fun v w => l.findIdx (f · == v) < l.findIdx (f · == w)

section FirstOccurrences

variable {α β : Type} [BEq β] [LawfulBEq β]

/-- The values taken on the items of a class stand in the order in which they are first taken on
such items. -/
theorem pairwise_findIdx_eraseDups (f : α → β) (p : α → Bool) (l : List α) :
    ((l.filter p).map f).eraseDups.Pairwise fun v w =>
      (l.findIdx fun a => p a && f a == v) < l.findIdx fun a => p a && f a == w := by
  induction l generalizing p with
  | nil => exact .nil
  | cons a l ih =>
    by_cases ha : p a = true
    · -- The other values are those of the items that do not take the first one.
      have hothers : ((l.filter p).map f).filter (fun v => !v == f a) =
          (l.filter fun b => p b && !f b == f a).map f := by
        rw [List.filter_map, List.filter_filter]
        congr 2
        funext b
        exact Bool.and_comm _ _
      have hne : ∀ v ∈ ((l.filter fun b => p b && !f b == f a).map f).eraseDups,
          (f a == v) = false := by
        intro v hv
        rw [List.mem_eraseDups] at hv
        grind
      have hsame : ∀ v, (f a == v) = false → (fun b => p b && !f b == f a && f b == v) =
          fun b => p b && f b == v := by
        intro v hv
        funext b
        grind
      rw [List.filter_cons_of_pos ha, List.map_cons, List.eraseDups_cons, hothers]
      refine List.pairwise_cons.2 ⟨fun v hv => ?_, (ih _).imp_of_mem fun {v w} hv hw hlt => ?_⟩
      · simp [List.findIdx_cons, ha, hne v hv]
      · rw [hsame v (hne v hv), hsame w (hne w hw)] at hlt
        simpa [List.findIdx_cons, hne v hv, hne w hw] using hlt
    · rw [List.filter_cons_of_neg ha]
      refine (ih p).imp fun hlt => ?_
      simpa [List.findIdx_cons, ha] using hlt

/-- Leaving out repetitions keeps first values. -/
theorem firstValues_eraseDups (f : α → β) (l : List α) : FirstValues f l (l.map f).eraseDups where
  nodup := nodup_eraseDups _
  mem_iff v := by rw [List.mem_eraseDups, List.mem_map]
  ordered := by
    have h := pairwise_findIdx_eraseDups f (fun _ => true) l
    rw [List.filter_eq_self.2 fun _ _ => rfl] at h
    simpa only [Bool.true_and] using h

end FirstOccurrences

namespace Graph

/-! ## mentions -/

/-- The nodes that a change mentions, in order; an edge knows its ends by their ids. -/
def Change.mentions : Change → List Node
  | .node n => [n]
  | .edge e => [⟨e.source, e.source, .other⟩, ⟨e.target, e.target, .other⟩]

/-- The edge that a change adds. -/
def Change.edge? : Change → Option Edge
  | .node _ => none
  | .edge e => some e

/-- All mentions of nodes, in order. -/
def mentioned (changes : List Change) : List Node := changes.flatMap Change.mentions

/-- All edges added, in order. -/
def inserted (changes : List Change) : List Edge := changes.filterMap Change.edge?

/-- The graph has what a change would add: a node of the id, or the edge. -/
def Has (g : Graph) : Change → Prop
  | .node n => n.id ∈ g.ids
  | .edge e => e ∈ g.edges

/-- Some of the changes mention the id that a node would have, or add the edge. -/
def Change.Repeats (changes : List Change) : Change → Prop
  | .node n => ∃ m ∈ mentioned changes, m.id = n.id
  | .edge e => .edge e ∈ changes

variable {g : Graph} {all : List Node} {changes : List Change}

/-- Each node is the first mention of its id among `all`, and they stand in this order. -/
structure FirstOf (all nodes : List Node) : Prop where
  ids : nodes.map Node.id = (all.map Node.id).eraseDups
  first : ∀ n ∈ nodes, all.find? (·.id == n.id) = some n

/-- A node is added unless its id is there. -/
theorem nodes_addNode (g : Graph) (n : Node) :
    (g.addNode n).nodes = if n.id ∈ g.ids then g.nodes else g.nodes ++ [n] := by
  rw [addNode_eq]
  simp only [contains_iff]
  split <;> rfl

/-- An id is taken exactly if it was mentioned. -/
theorem FirstOf.mem_ids_iff (h : FirstOf all g.nodes) {id : String} :
    id ∈ g.ids ↔ id ∈ all.map Node.id := by
  rw [Graph.ids, h.ids, List.mem_eraseDups]

/-- A node more keeps the nodes the first ones. -/
theorem FirstOf.addNode (h : FirstOf all g.nodes) (n : Node) :
    FirstOf (all ++ [n]) (g.addNode n).nodes := by
  have hmap : (all ++ [n]).map Node.id = all.map Node.id ++ [n.id] := by simp
  rw [nodes_addNode]
  split
  · next hid =>
    refine ⟨?_, fun m hm => ?_⟩
    · rw [hmap, eraseDups_concat_of_mem (h.mem_ids_iff.1 hid), h.ids]
    · rw [List.find?_append, h.first m hm]
      rfl
  · next hid =>
    have hnew := mt h.mem_ids_iff.2 hid
    refine ⟨?_, fun m hm => ?_⟩
    · rw [hmap, eraseDups_concat_of_not_mem hnew, ← h.ids, List.map_append, List.map_singleton]
    · rw [List.find?_append]
      rcases List.mem_append.1 hm with hm | hm
      · rw [h.first m hm]
        rfl
      · -- Nothing mentioned before has the id of the new node.
        obtain rfl := List.mem_singleton.1 hm
        have hnone : all.find? (·.id == m.id) = none := by
          simpa using hnew
        simp [hnone]

/-- The graph holds what the changes mention first. -/
structure Records (changes : List Change) (g : Graph) : Prop where
  nodes : FirstOf (mentioned changes) g.nodes
  edges : g.edges = (inserted changes).eraseDups

/-- A change more is recorded. -/
theorem Records.apply (h : Records changes g) (c : Change) :
    Records (changes ++ [c]) (g.apply c) := by
  cases c with
  | node n =>
    have hmentioned : mentioned (changes ++ [.node n]) = mentioned changes ++ [n] := by
      simp [mentioned, Change.mentions]
    have hinserted : inserted (changes ++ [.node n]) = inserted changes := by
      rw [inserted, List.filterMap_append]
      exact List.append_nil _
    have happly : g.apply (.node n) = g.addNode n := rfl
    rw [happly]
    refine ⟨hmentioned ▸ h.nodes.addNode n, ?_⟩
    rw [edges_addNode, hinserted, h.edges]
  | edge e =>
    have hmentioned : mentioned (changes ++ [.edge e]) =
        mentioned changes ++ [⟨e.source, e.source, .other⟩] ++ [⟨e.target, e.target, .other⟩] := by
      simp [mentioned, Change.mentions]
    have hinserted : inserted (changes ++ [.edge e]) = inserted changes ++ [e] := by
      rw [inserted, List.filterMap_append]
      rfl
    have hmem : e ∈ inserted changes ↔
        ((g.mention e.source).mention e.target).edges.contains e := by
      rw [mention, mention, edges_addNode, edges_addNode, h.edges, List.contains_iff_mem,
        List.mem_eraseDups]
    have hnodes : FirstOf (mentioned (changes ++ [.edge e]))
        ((g.mention e.source).mention e.target).nodes :=
      hmentioned ▸ (h.nodes.addNode _).addNode _
    have happly : g.apply (.edge e) = g.addEdge e := rfl
    rw [happly, addEdge_eq]
    dsimp only
    split
    · next hold =>
      refine ⟨hnodes, ?_⟩
      rw [hinserted, eraseDups_concat_of_mem (hmem.2 hold), ← h.edges, mention, mention,
        edges_addNode, edges_addNode]
    · next hnew =>
      refine ⟨hnodes, ?_⟩
      rw [hinserted, eraseDups_concat_of_not_mem (mt hmem.1 hnew), ← h.edges, mention, mention,
        edges_addNode, edges_addNode]

/-- Every graph holds what the changes that make it mention first. -/
theorem records_ofChanges (changes : List Change) : Records changes (ofChanges changes) := by
  have hrun : ∀ (l before : List Change) (g : Graph), Records before g →
      Records (before ++ l) (l.foldl Graph.apply g) := by
    intro l
    induction l with
    | nil =>
      intro before g h
      rwa [List.append_nil]
    | cons c l ih =>
      intro before g h
      rw [List.append_cons]
      exact ih (before ++ [c]) (g.apply c) (h.apply c)
  exact hrun changes [] {} ⟨⟨rfl, by simp⟩, rfl⟩

/-- The edges that were inserted are those of the changes. -/
theorem mem_inserted_iff {e : Edge} : e ∈ inserted changes ↔ .edge e ∈ changes := by
  rw [inserted, List.mem_filterMap]
  constructor
  · rintro ⟨c, hc, hedge⟩
    cases c with
    | node n => cases hedge
    | edge d =>
      obtain rfl := Option.some.inj hedge
      exact hc
  · exact fun h => ⟨_, h, rfl⟩

/-- A graph has what was mentioned. -/
theorem Records.has_iff (h : Records changes g) (c : Change) : g.Has c ↔ c.Repeats changes := by
  cases c with
  | node n => rw [Has, Change.Repeats, h.nodes.mem_ids_iff, List.mem_map]
  | edge e => rw [Has, Change.Repeats, h.edges, List.mem_eraseDups, mem_inserted_iff]

/-- A change is new if the graph does not have it. -/
theorem isNew_iff (g : Graph) (c : Change) : g.isNew c = true ↔ ¬g.Has c := by
  cases c with
  | node n => simp only [isNew, insert, insertNode, Has, ← contains_iff]; split <;> simp_all
  | edge e =>
    simp only [isNew, insert, insertEdge, Has, mention, edges_addNode, List.contains_iff_mem]
    split <;> simp_all

/-! ## every graph -/

/-- **First mentions.** In the graph that changes make, ids are in the order of their first
mention and each node is that mention; edges are in the order in which they were first added,
and join nodes.  A further change is told to be new exactly if the graph does not have what it
adds, which is if nothing before mentioned it.  Every node has its successors beside it, in the
order of the first edges that lead to them. -/
theorem first_mentions (changes : List Change) :
    FirstValues Node.id (mentioned changes) (ofChanges changes).ids ∧
      (∀ n ∈ (ofChanges changes).nodes, (mentioned changes).find? (·.id == n.id) = some n) ∧
      FirstValues id (inserted changes) (ofChanges changes).edges ∧
      (∀ e ∈ (ofChanges changes).edges,
        e.source ∈ (ofChanges changes).ids ∧ e.target ∈ (ofChanges changes).ids) ∧
      (∀ c, ((ofChanges changes).isNew c = true ↔ ¬(ofChanges changes).Has c) ∧
        ((ofChanges changes).Has c ↔ c.Repeats changes)) ∧
      (ofChanges changes).adjacency.map Prod.fst = (ofChanges changes).ids ∧
      ∀ u vs, (u, vs) ∈ (ofChanges changes).adjacency →
        FirstValues Edge.target ((ofChanges changes).edges.filter (·.source == u)) vs := by
  have h := records_ofChanges changes
  refine ⟨?_, h.nodes.first, ?_, (wellFormed_ofChanges changes).ends,
    fun c => ⟨isNew_iff _ c, h.has_iff c⟩, ?_, ?_⟩
  · rw [Graph.ids, h.nodes.ids]
    exact firstValues_eraseDups Node.id _
  · rw [h.edges]
    simpa using firstValues_eraseDups id (inserted changes)
  · simp [adjacency_eq, Function.comp_def]
  · intro u vs hmem
    rw [adjacency_eq] at hmem
    obtain ⟨id, -, heq⟩ := List.mem_map.1 hmem
    obtain ⟨rfl, rfl⟩ := Prod.mk.inj heq
    exact firstValues_eraseDups Edge.target _

/-- An edge added before either of its ends is described, parallel edges, one of them added
twice, and a loop. -/
def describedLate : List Change :=
  [.edge ⟨"a", "b", .empty⟩, .node ⟨"b", "method", .method⟩,
    .edge ⟨"a", "b", .ofList [("label", "calls")]⟩, .edge ⟨"a", "a", .empty⟩,
    .edge ⟨"a", "b", .empty⟩, .node ⟨"c", "request", .http⟩]

theorem first_mentions_describedLate :
    (mentioned describedLate).find? (·.id == "b") = some ⟨"b", "b", .other⟩ ∧
      "a" ∈ (ofChanges describedLate).ids ∧
      (ofChanges describedLate).isNew (.edge ⟨"a", "b", .empty⟩) = false ∧
      FirstValues Edge.target ((ofChanges describedLate).edges.filter (·.source == "a"))
        ["b", "a"] := by
  obtain ⟨-, hfirst, -, hends, -, -, hadjacent⟩ := first_mentions describedLate
  have hloop : (⟨"a", "a", .empty⟩ : Edge) ∈ (ofChanges describedLate).edges := by decide
  exact ⟨hfirst ⟨"b", "b", .other⟩ (by decide), (hends _ hloop).1, by decide,
    hadjacent "a" ["b", "a"] (by decide +kernel)⟩

end Graph

end ConnectorAudit
