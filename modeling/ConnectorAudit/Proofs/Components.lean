import Mathlib.Data.List.Permutation
import ConnectorAudit.Proofs.Growth
import ConnectorAudit.Proofs.LowLinks
import ConnectorAudit.Proofs.Sorting

/-!
# Components are the classes of mutual reachability

The search for components works on positions in the list of the nodes.  Positions
stand for different nodes, and those that follow a position stand for the successors
of its node (`WellFormed.map_idAt_follow`), so that what is known of the search
carries over: `Graph.components_partition` is the result for every graph.

A component is found when all that it leads to is in components found before, and so
an edge between two components leads to the earlier one
(`Graph.target_component_earlier`).
-/

namespace ConnectorAudit

open Relation

namespace Graph

variable {g : Graph}

/-! ## positions -/

/-- The rows that the search for components reads. -/
def rows (g : Graph) : Array (String × List String) := g.adjacency.toArray

/-- The node at a position. -/
def idAt (g : Graph) (v : Fin g.rows.size) : String := g.rows[v].1

/-- The positions that follow a position. -/
def follow (g : Graph) : Fin g.rows.size → List (Fin g.rows.size) := Adjacency.positions g.rows

/-- The groups are those that the search finds, by their ids. -/
theorem groups_eq (g : Graph) :
    g.groups = (LowLinks.search g.follow).components.map (·.map g.idAt) := by
  have hfollow : (fun v : Fin g.rows.size => (Vector.ofFn (Adjacency.positions g.rows))[v]) =
      g.follow := by
    funext v
    simp [follow]
  rw [← hfollow]
  rfl

/-- The positions of the rows are their ids, in the order of the rows. -/
theorem map_idAt_finRange (g : Graph) : (List.finRange g.rows.size).map g.idAt = g.ids := by
  have hids : g.ids = g.rows.toList.map Prod.fst := by
    simp [rows, adjacency_eq, Function.comp_def]
  refine List.ext_getElem ?_ fun i _ _ => ?_
  · simp [hids]
  · simp [hids, idAt]

/-- The row of a position holds the successors of its node. -/
theorem row_eq (v : Fin g.rows.size) : g.rows[v].2 = g.successors (g.idAt v) := by
  have hmem : g.rows[v] ∈ g.adjacency := by
    rw [← List.mem_toArray]
    exact Array.getElem_mem v.isLt
  rw [adjacency_eq] at hmem
  obtain ⟨id, -, hrow⟩ := List.mem_map.1 hmem
  rw [idAt, ← hrow]

/-- Every id is that of some row. -/
theorem exists_idAt {id : String} (h : id ∈ g.ids) : ∃ v, g.idAt v = id := by
  rw [← map_idAt_finRange] at h
  obtain ⟨v, -, hv⟩ := List.mem_map.1 h
  exact ⟨v, hv⟩

namespace WellFormed

variable (h : g.WellFormed)

include h

/-- Two rows have two ids. -/
theorem idAt_injective : Function.Injective g.idAt := by
  have hnodup := h.nodup
  rw [← map_idAt_finRange] at hnodup
  intro v w heq
  exact List.inj_on_of_nodup_map hnodup (List.mem_finRange v) (List.mem_finRange w) heq

/-- The positions that follow a position are those of the successors of its node. -/
theorem map_idAt_follow (v : Fin g.rows.size) :
    (g.follow v).map g.idAt = g.successors (g.idAt v) := by
  have hfound : ∀ t ∈ g.successors (g.idAt v),
      (g.rows.findFinIdx? (·.1 == t)).map g.idAt = some t := by
    intro t ht
    obtain ⟨w, rfl⟩ := exists_idAt (h.mem_of_joins (mem_successors_iff.1 ht)).2
    cases hw : g.rows.findFinIdx? (·.1 == g.idAt w) with
    | none =>
      have hno := Array.findFinIdx?_eq_none_iff.1 hw g.rows[w] (Array.getElem_mem w.isLt)
      simp [idAt] at hno
    | some u =>
      have hu := (Array.findFinIdx?_eq_some_iff.1 hw).1
      simpa [idAt] using hu
  rw [follow, Adjacency.positions, row_eq, List.map_filterMap, List.filterMap_congr hfound]
  exact List.filterMap_some

/-- A row follows another where an edge joins their ids. -/
theorem mem_follow_iff {v w : Fin g.rows.size} :
    w ∈ g.follow v ↔ g.Joins (g.idAt v) (g.idAt w) := by
  rw [← mem_successors_iff, ← h.map_idAt_follow, List.mem_map_of_injective h.idAt_injective]

/-- Rows lead to one another as their ids do. -/
theorem leads_follow_iff {v w : Fin g.rows.size} :
    Leads g.follow v w ↔ g.Reaches (g.idAt v) (g.idAt w) := by
  constructor
  · exact ReflTransGen.lift g.idAt (fun _ _ hstep => h.mem_follow_iff.1 hstep) v w
  · intro hwalk
    generalize hid : g.idAt w = id at hwalk
    induction hwalk generalizing w with
    | refl =>
      rw [h.idAt_injective hid]
      exact ReflTransGen.refl
    | tail _ hstep ih =>
      obtain ⟨u, hu⟩ := exists_idAt (h.mem_of_joins hstep).1
      exact ReflTransGen.tail (ih hu) (h.mem_follow_iff.2 (by rwa [hu, hid]))

/-- Rows lead to each other as their ids do. -/
theorem mutual_follow_iff {v w : Fin g.rows.size} :
    Mutual g.follow v w ↔
      g.Reaches (g.idAt v) (g.idAt w) ∧ g.Reaches (g.idAt w) (g.idAt v) := by
  rw [Mutual, h.leads_follow_iff, h.leads_follow_iff]

/-- The groups behind the components are classes of mutual reachability. -/
theorem mem_group_iff {c : List String} (hc : c ∈ g.groups) :
    ∃ a, ∀ b, b ∈ c ↔ g.Reaches a b ∧ g.Reaches b a := by
  rw [groups_eq] at hc
  obtain ⟨d, hd, rfl⟩ := List.mem_map.1 hc
  obtain ⟨v, hv⟩ := LowLinks.mem_component_search_iff hd
  refine ⟨g.idAt v, fun b => ?_⟩
  constructor
  · intro hb
    obtain ⟨w, hw, rfl⟩ := List.mem_map.1 hb
    exact h.mutual_follow_iff.1 ((hv w).1 hw)
  · rintro ⟨hvb, hbv⟩
    have hb : b ∈ g.ids := by
      cases hvb with
      | refl => exact map_idAt_finRange g ▸ List.mem_map_of_mem (List.mem_finRange v)
      | tail _ hstep => exact (h.mem_of_joins hstep).2
    obtain ⟨w, rfl⟩ := exists_idAt hb
    exact List.mem_map_of_mem ((hv w).2 (h.mutual_follow_iff.2 ⟨hvb, hbv⟩))

end WellFormed

/-- The groups hold every node once. -/
theorem perm_flatten_groups (g : Graph) : g.groups.flatten.Perm g.ids := by
  rw [groups_eq, ← List.map_flatten, ← map_idAt_finRange]
  exact (LowLinks.perm_flatten_search g.follow).map _

/-! ## components -/

/-- The components hold the nodes of the groups. -/
theorem perm_flatten_map_mergeSort (groups : List (List String)) :
    (groups.map (·.mergeSort (· ≤ ·))).flatten.Perm groups.flatten := by
  induction groups with
  | nil => exact List.Perm.refl _
  | cons c groups ih =>
    rw [List.map_cons, List.flatten_cons, List.flatten_cons]
    exact (List.mergeSort_perm c _).append ih

/-- The components hold every node once. -/
theorem perm_flatten_components (g : Graph) :
    g.components.flatten.Perm g.ids :=
  (perm_flatten_map_mergeSort _).trans g.perm_flatten_groups

/-- A component is a class, and has a node. -/
theorem WellFormed.mem_component_iff (h : g.WellFormed) {c : List String}
    (hc : c ∈ g.components) : ∃ a ∈ c, ∀ b, b ∈ c ↔ g.Reaches a b ∧ g.Reaches b a := by
  obtain ⟨group, hgroup, rfl⟩ := List.mem_map.1 hc
  obtain ⟨a, ha⟩ := h.mem_group_iff hgroup
  have hmem : ∀ b, b ∈ group.mergeSort (· ≤ ·) ↔ g.Reaches a b ∧ g.Reaches b a := fun b => by
    rw [List.mem_mergeSort, ha]
  exact ⟨a, (hmem a).2 ⟨ReflTransGen.refl, ReflTransGen.refl⟩, hmem⟩

/-- A component is the class of each of its nodes. -/
theorem WellFormed.mem_component_iff_mutual (h : g.WellFormed) {a b : String} {c : List String}
    (hc : c ∈ g.components) (ha : a ∈ c) : b ∈ c ↔ g.Reaches a b ∧ g.Reaches b a := by
  obtain ⟨r, -, hr⟩ := h.mem_component_iff hc
  obtain ⟨hra, har⟩ := (hr a).1 ha
  rw [hr]
  exact ⟨fun ⟨hrb, hbr⟩ => ⟨ReflTransGen.trans har hrb, ReflTransGen.trans hbr hra⟩,
    fun ⟨hab, hba⟩ => ⟨ReflTransGen.trans hra hab, ReflTransGen.trans hba har⟩⟩

/-- A component comes in order. -/
theorem sorted_of_mem_components {c : List String} (hc : c ∈ g.components) :
    c.Pairwise (· ≤ ·) := by
  obtain ⟨group, -, rfl⟩ := List.mem_map.1 hc
  exact pairwise_mergeSort_le group

/-- The components of a well-formed graph are the sorted classes of mutual reachability. -/
theorem WellFormed.mem_components_iff (h : g.WellFormed) {c : List String} :
    c ∈ g.components ↔
      c.Pairwise (· ≤ ·) ∧ c.Nodup ∧ ∃ a ∈ g.ids, ∀ b, b ∈ c ↔ g.Reaches a b ∧ g.Reaches b a := by
  have hflat : g.components.flatten.Nodup := g.perm_flatten_components.nodup_iff.2 h.nodup
  have hnodup : ∀ c ∈ g.components, c.Nodup := fun c hc => (List.nodup_flatten.1 hflat).1 c hc
  constructor
  · intro hc
    obtain ⟨a, ha, hclass⟩ := h.mem_component_iff hc
    have hids : a ∈ g.ids := g.perm_flatten_components.mem_iff.1 (List.mem_flatten_of_mem hc ha)
    exact ⟨sorted_of_mem_components hc, hnodup c hc, a, hids, hclass⟩
  · rintro ⟨hsorted, hc, a, ha, hclass⟩
    -- The component that holds `a` has the same nodes in the same order.
    obtain ⟨d, hd, had⟩ := List.mem_flatten.1 (g.perm_flatten_components.mem_iff.2 ha)
    have hsame : ∀ b, b ∈ c ↔ b ∈ d := fun b => by
      rw [hclass, h.mem_component_iff_mutual hd had]
    have hperm : c.Perm d := (List.perm_ext_iff_of_nodup hc (hnodup d hd)).2 hsame
    rw [hperm.eq_of_pairwise (fun _ _ _ _ => String.le_antisymm) hsorted
      (sorted_of_mem_components hd)]
    exact hd

/-- No component comes twice. -/
theorem WellFormed.nodup_components (h : g.WellFormed) : g.components.Nodup := by
  have hflat : g.components.flatten.Nodup := g.perm_flatten_components.nodup_iff.2 h.nodup
  refine (List.nodup_flatten.1 hflat).2.imp_of_mem fun {c d} hc _ hdisjoint heq => ?_
  obtain ⟨a, ha, -⟩ := h.mem_component_iff hc
  exact hdisjoint ha (heq ▸ ha)

/-- The components of a well-formed graph join exactly the nodes that reach each other. -/
theorem WellFormed.same_component_iff (h : g.WellFormed) {a b : String} (ha : a ∈ g.ids) :
    (∃ c ∈ g.components, a ∈ c ∧ b ∈ c) ↔ g.Reaches a b ∧ g.Reaches b a := by
  constructor
  · rintro ⟨c, hc, hac, hbc⟩
    exact (h.mem_component_iff_mutual hc hac).1 hbc
  · intro hmutual
    obtain ⟨c, hc, hac⟩ := List.mem_flatten.1 (g.perm_flatten_components.mem_iff.2 ha)
    exact ⟨c, hc, hac, (h.mem_component_iff_mutual hc hac).2 hmutual⟩

/-- The components of any graph that changes make: non-empty, sorted, together every node once,
and two nodes are in one of them exactly if each reaches the other. -/
theorem components_partition (changes : List Change) :
    (ofChanges changes).ids.Nodup ∧
      (ofChanges changes).components.flatten.Perm (ofChanges changes).ids ∧
      (∀ c ∈ (ofChanges changes).components, c ≠ [] ∧ c.Pairwise (· ≤ ·)) ∧
      ∀ a ∈ (ofChanges changes).ids, ∀ b ∈ (ofChanges changes).ids,
        (∃ c ∈ (ofChanges changes).components, a ∈ c ∧ b ∈ c) ↔
          (ofChanges changes).Reaches a b ∧ (ofChanges changes).Reaches b a := by
  have h : (ofChanges changes).WellFormed := wellFormed_ofChanges changes
  refine ⟨h.nodup, perm_flatten_components _, fun c hc => ?_, fun a ha b _ =>
    h.same_component_iff ha⟩
  obtain ⟨a, ha, -⟩ := h.mem_component_iff hc
  exact ⟨List.ne_nil_of_mem ha, sorted_of_mem_components hc⟩

/-- A ring of two nodes, and a third node that it leads to. -/
def ringWithTail : List Change :=
  [.edge ⟨"a", "b", .empty⟩, .edge ⟨"b", "a", .empty⟩, .edge ⟨"b", "c", .empty⟩]

/-- The nodes of the ring are in one component, and the third node is not in it. -/
theorem components_ringWithTail :
    ("a" ∈ (ofChanges ringWithTail).ids ∧ "b" ∈ (ofChanges ringWithTail).ids ∧
      "c" ∈ (ofChanges ringWithTail).ids) ∧
    (∃ c ∈ (ofChanges ringWithTail).components, "a" ∈ c ∧ "b" ∈ c) ∧
      ¬∃ c ∈ (ofChanges ringWithTail).components, "a" ∈ c ∧ "c" ∈ c := by
  have ha : "a" ∈ (ofChanges ringWithTail).ids := by decide
  have hb : "b" ∈ (ofChanges ringWithTail).ids := by decide
  have hc : "c" ∈ (ofChanges ringWithTail).ids := by decide
  have hsame := (components_partition ringWithTail).2.2.2 "a" ha
  refine ⟨⟨ha, hb, hc⟩, (hsame "b" hb).2 ⟨?_, ?_⟩, fun h => ?_⟩
  · exact ReflTransGen.single ⟨⟨"a", "b", .empty⟩, by decide, rfl, rfl⟩
  · exact ReflTransGen.single ⟨⟨"b", "a", .empty⟩, by decide, rfl, rfl⟩
  · -- No edge leads on from the third node.
    have hstuck : ∀ e ∈ (ofChanges ringWithTail).edges, e.source ≠ "c" := by decide
    rcases ReflTransGen.cases_head ((hsame "c" hc).1 h).2 with heq | ⟨d, ⟨e, he, hsource, -⟩, -⟩
    · exact absurd heq (by decide)
    · exact hstuck e he hsource

/-! ## the order of components -/

/-- No component leads to one that comes before it. -/
theorem WellFormed.pairwise_components (h : g.WellFormed) :
    g.components.Pairwise (Unled g.successors) := by
  rw [components, groups_eq, List.map_map]
  have hsearch := LowLinks.pairwise_search g.follow
  refine List.pairwise_map.2 (hsearch.imp fun hunled a ha b hb hab => ?_)
  simp only [Function.comp_apply, List.mem_mergeSort, List.mem_map] at ha hb
  obtain ⟨v, hv, rfl⟩ := ha
  obtain ⟨w, hw, rfl⟩ := hb
  exact hunled v hv w hw (h.mem_follow_iff.2 (mem_successors_iff.1 hab))

/-- **Order of components.** An edge from one component to another leads to one that comes
earlier. -/
theorem target_component_earlier (changes : List Change) {i j : Nat} {c d : List String}
    (hc : (ofChanges changes).components[i]? = some c)
    (hd : (ofChanges changes).components[j]? = some d) (hne : c ≠ d) {e : Edge}
    (he : e ∈ (ofChanges changes).edges) (hsource : e.source ∈ c) (htarget : e.target ∈ d) :
    j < i := by
  obtain ⟨hi, rfl⟩ := List.getElem?_eq_some_iff.1 hc
  obtain ⟨hj, rfl⟩ := List.getElem?_eq_some_iff.1 hd
  have hpairwise := (wellFormed_ofChanges changes).pairwise_components
  rcases Nat.lt_trichotomy i j with hij | rfl | hji
  · have hunled := List.pairwise_iff_getElem.1 hpairwise i j hi hj hij
    exact absurd (mem_successors_iff.2 ⟨e, he, rfl, rfl⟩) (hunled _ hsource _ htarget)
  · exact absurd rfl hne
  · exact hji

/-- A ring that leads to another ring, and a node added last that leads to both. -/
def ringsBelowRoot : List Change :=
  [.edge ⟨"a", "b", .empty⟩, .edge ⟨"b", "c", .empty⟩, .edge ⟨"b", "a", .empty⟩,
    .edge ⟨"c", "d", .empty⟩, .edge ⟨"d", "c", .empty⟩, .edge ⟨"r", "d", .empty⟩,
    .edge ⟨"r", "a", .empty⟩]

/-- The ring comes before the node that leads to it, which is a root of its own. -/
theorem component_earlier_ringsBelowRoot :
    ∃ i j : Nat, (ofChanges ringsBelowRoot).components[i]? = some ["r"] ∧
      (ofChanges ringsBelowRoot).components[j]? = some ["a", "b"] ∧ j < i := by
  have hgroups : (ofChanges ringsBelowRoot).groups = [["d", "c"], ["b", "a"], ["r"]] := by
    decide +kernel
  have hcomponents : (ofChanges ringsBelowRoot).components = [["c", "d"], ["a", "b"], ["r"]] := by
    rw [components, hgroups]
    cbv
  have hroot : (ofChanges ringsBelowRoot).components[2]? = some ["r"] := by rw [hcomponents]; rfl
  have hring : (ofChanges ringsBelowRoot).components[1]? = some ["a", "b"] := by
    rw [hcomponents]; rfl
  have hedge : (⟨"r", "a", .empty⟩ : Edge) ∈ (ofChanges ringsBelowRoot).edges := by decide
  exact ⟨2, 1, hroot, hring, target_component_earlier _ hroot hring (by decide) hedge
    (List.mem_singleton_self _) List.mem_cons_self⟩

end Graph

end ConnectorAudit
