import Mathlib.Data.Finset.Card
import Mathlib.Data.List.Nodup
import ConnectorAudit.Proofs.Growth
import ConnectorAudit.Proofs.Routes

/-!
# What the paths cover

The paths of an entrypoint follow the edges, so they stay in what can be reached
from it.  If none of them is cut short they cover all of it: an ancestor that ends
a path was left by all its edges when the path went through it, so every edge out
of a node on a path is a step of some path (`exists_step_of_mem_route`), and what
is closed under edges holds all that walks lead to.

Two searches that have nothing in common thus count the same nodes, edges and
requests: `Graph.complexity_paths`.
-/

namespace ConnectorAudit

open Relation

/-! ## steps -/

section Steps

variable {α : Type}

@[simp]
theorem steps_singleton (a : α) : steps [a] = [] := rfl

@[simp]
theorem steps_cons_cons (a b : α) (path : List α) :
    steps (a :: b :: path) = (a, b) :: steps (b :: path) := rfl

/-- The steps of a longer path include those of the path behind its first item. -/
theorem steps_subset_steps_cons (a : α) (path : List α) : steps path ⊆ steps (a :: path) := by
  cases path with
  | nil => exact fun _ h => h
  | cons b path => exact List.subset_cons_of_subset _ (List.Subset.refl _)

/-- A step leads from one node of the path to another. -/
theorem mem_of_mem_steps {a b : α} {path : List α} (h : (a, b) ∈ steps path) :
    a ∈ path ∧ b ∈ path :=
  ⟨(List.of_mem_zip h).1, List.mem_of_mem_tail (List.of_mem_zip h).2⟩

end Steps

/-! ## routes and walks -/

section Routes

variable {next : String → List String} {limit depth : Nat} {before : List String} {node : String}

/-- A route begins with its node. -/
theorem exists_cons_of_mem_routes {r : Route} (h : r ∈ routes next limit depth before node) :
    ∃ rest, r.nodes = node :: rest := by
  fun_induction routes next limit depth before node with
  | case1 => exact ⟨[], by rw [List.mem_singleton.1 h]⟩
  | case2 => exact ⟨[], by rw [List.mem_singleton.1 h]⟩
  | case3 depth before node _ _ ih =>
    obtain ⟨n, -, hr⟩ := List.mem_flatMap.1 h
    obtain ⟨r, -, rfl⟩ := List.mem_map.1 hr
    exact ⟨r.nodes, rfl⟩

/-- A route goes along `next`. -/
theorem mem_next_of_mem_steps {r : Route} (h : r ∈ routes next limit depth before node)
    {a b : String} (hab : (a, b) ∈ steps r.nodes) : b ∈ next a := by
  fun_induction routes next limit depth before node generalizing r with
  | case1 => simp [List.mem_singleton.1 h] at hab
  | case2 => simp [List.mem_singleton.1 h] at hab
  | case3 depth before node _ _ ih =>
    obtain ⟨n, hn, hr⟩ := List.mem_flatMap.1 h
    obtain ⟨s, hs, rfl⟩ := List.mem_map.1 hr
    obtain ⟨rest, hrest⟩ := exists_cons_of_mem_routes hs
    rw [Route.behind, hrest, List.singleton_append, steps_cons_cons, ← hrest] at hab
    rcases List.mem_cons.1 hab with heq | hab
    · obtain ⟨rfl, rfl⟩ := Prod.mk.inj heq
      exact hn
    · exact ih n hs hab

/-- A walk leads to every node of a route. -/
theorem leads_of_mem_route {r : Route} (h : r ∈ routes next limit depth before node)
    {a : String} (ha : a ∈ r.nodes) : Leads next node a := by
  fun_induction routes next limit depth before node generalizing r with
  | case1 =>
    rw [List.mem_singleton.1 h, List.mem_singleton] at ha
    exact ha ▸ ReflTransGen.refl
  | case2 =>
    rw [List.mem_singleton.1 h, List.mem_singleton] at ha
    exact ha ▸ ReflTransGen.refl
  | case3 depth before node _ _ ih =>
    obtain ⟨n, hn, hr⟩ := List.mem_flatMap.1 h
    obtain ⟨s, hs, rfl⟩ := List.mem_map.1 hr
    rcases List.mem_cons.1 ha with rfl | ha
    · exact ReflTransGen.refl
    · exact ReflTransGen.head hn (ih n hs ha)

/-- If no route is cut short, every edge out of a node on a route is a step of one, unless the
node was on the way already. -/
theorem exists_step_of_mem_route
    (hcut : ∀ r ∈ routes next limit depth before node, r.cut = false) {r : Route}
    (h : r ∈ routes next limit depth before node) {a b : String} (ha : a ∈ r.nodes)
    (hbefore : a ∉ before) (hb : b ∈ next a) :
    ∃ s ∈ routes next limit depth before node, (a, b) ∈ steps s.nodes := by
  fun_induction routes next limit depth before node generalizing r with
  | case1 depth before node hends =>
    rw [List.mem_singleton.1 h, List.mem_singleton] at ha
    subst ha
    rcases hends with hmem | hnil
    · exact absurd hmem hbefore
    · rw [hnil] at hb
      cases hb
  | case2 => exact absurd (hcut _ (List.mem_singleton_self _)) (by simp)
  | case3 depth before node _ _ ih =>
    obtain ⟨n, hn, hr⟩ := List.mem_flatMap.1 h
    obtain ⟨r, hr', rfl⟩ := List.mem_map.1 hr
    by_cases hnode : a = node
    · -- The edge is taken here, by any route that goes on to its end.
      subst hnode
      have hne : routes next limit (depth + 1) (a :: before) b ≠ [] := routes_ne_nil
      obtain ⟨s, hs⟩ := List.exists_mem_of_ne_nil _ hne
      obtain ⟨rest, hrest⟩ := exists_cons_of_mem_routes hs
      refine ⟨s.behind [a], behind_mem_flatMap hb hs, ?_⟩
      rw [Route.behind, hrest, List.singleton_append, steps_cons_cons]
      exact List.mem_cons_self
    · -- The edge is taken further on, where the node is on the way for the first time.
      have hmem : a ∈ r.nodes := List.mem_of_ne_of_mem hnode ha
      obtain ⟨s, hs, hstep⟩ :=
        ih n (fun s hs => hcut (s.behind [node]) (behind_mem_flatMap hn hs)) hr' hmem
          (by simp [hnode, hbefore])
      exact ⟨s.behind [node], behind_mem_flatMap hn hs, steps_subset_steps_cons node s.nodes hstep⟩

/-- If no route from an entrypoint is cut short, the routes go through what walks lead to. -/
theorem exists_mem_route_of_leads (hcut : ∀ r ∈ routes next limit 0 [] node, r.cut = false)
    {a : String} (h : Leads next node a) : ∃ r ∈ routes next limit 0 [] node, a ∈ r.nodes := by
  induction h with
  | refl =>
    have hne : routes next limit 0 [] node ≠ [] := routes_ne_nil
    obtain ⟨r, hr⟩ := List.exists_mem_of_ne_nil _ hne
    obtain ⟨rest, hrest⟩ := exists_cons_of_mem_routes hr
    exact ⟨r, hr, by simp [hrest]⟩
  | tail _ hstep ih =>
    obtain ⟨r, hr, ha⟩ := ih
    obtain ⟨s, hs, hab⟩ := exists_step_of_mem_route hcut hr ha List.not_mem_nil hstep
    exact ⟨s, hs, (mem_of_mem_steps hab).2⟩

end Routes

/-! ## counting -/

namespace PathSet

def met (found : PathSet) : Finset String := found.paths.toList.flatten.toFinset

def used (found : PathSet) : Finset (String × String) :=
  (found.paths.toList.flatMap steps).toFinset

variable {found : PathSet}

/-- What was met lies on one of the paths found. -/
theorem mem_met_iff {a : String} : a ∈ found.met ↔ ∃ path ∈ found.paths.toList, a ∈ path := by
  rw [met, List.mem_toFinset, List.mem_flatten]

/-- What was used is a step of one of the paths found. -/
theorem mem_used_iff {s : String × String} :
    s ∈ found.used ↔ ∃ path ∈ found.paths.toList, s ∈ steps path := by
  rw [used, List.mem_toFinset, List.mem_flatMap]

/-- A step that was used begins at something that was met. -/
theorem mem_met_of_mem_used {a b : String} (h : (a, b) ∈ found.used) : a ∈ found.met := by
  obtain ⟨path, hpath, hab⟩ := mem_used_iff.1 h
  exact mem_met_iff.2 ⟨path, hpath, (mem_of_mem_steps hab).1⟩

end PathSet

namespace Graph

variable {g : Graph}

section Sets

variable {α : Type} [BEq α] [LawfulBEq α] [Hashable α] [LawfulHashable α]

theorem nodup_toList (set : Std.HashSet α) : set.toList.Nodup :=
  Std.HashSet.distinct_toList.imp fun hne => by simpa using hne

/-- A set made from a list has as many members as the list has different ones. -/
theorem size_ofList [DecidableEq α] (l : List α) :
    (Std.HashSet.ofList l).size = l.toFinset.card := by
  rw [← Std.HashSet.length_toList, ← List.toFinset_card_of_nodup (nodup_toList _)]
  congr 1
  ext a
  simp

end Sets

theorem nodes_complexity (found : PathSet) : (g.complexity found).nodes = found.met.card :=
  size_ofList _

theorem edges_complexity (found : PathSet) : (g.complexity found).edges = found.used.card :=
  size_ofList _

/-- In a well-formed graph an id belongs to one node. -/
theorem WellFormed.node?_eq_some_iff (hg : g.WellFormed) {id : String} {n : Node} :
    g.node? id = some n ↔ n ∈ g.nodes ∧ n.id = id := by
  constructor
  · intro hfound
    exact ⟨List.mem_of_find?_eq_some hfound, by simpa using List.find?_some hfound⟩
  · rintro ⟨hn, rfl⟩
    obtain ⟨m, hm⟩ : ∃ m, g.node? n.id = some m :=
      Option.isSome_iff_exists.1 (List.find?_isSome.2 ⟨n, hn, by simp⟩)
    have hid : m.id = n.id := by simpa using List.find?_some hm
    rw [hm, List.inj_on_of_nodup_map hg.nodup (List.mem_of_find?_eq_some hm) hn hid]

/-- The requests on the paths are nodes. -/
theorem WellFormed.httpNodes_complexity (hg : g.WellFormed) (found : PathSet) :
    (g.complexity found).httpNodes =
      (g.nodes.filter fun n => n.kind = .http ∧ n.id ∈ found.met).length := by
  have hcounted : ((Std.HashSet.ofList found.paths.toList.flatten).toList.filter fun id =>
      (g.node? id).any (·.kind == .http)).Perm
        ((g.nodes.filter fun n => n.kind = .http ∧ n.id ∈ found.met).map Node.id) := by
    have hids : ((g.nodes.filter fun n => n.kind = .http ∧ n.id ∈ found.met).map Node.id).Nodup :=
      hg.nodup.sublist (List.filter_sublist.map Node.id)
    refine (List.perm_ext_iff_of_nodup ((nodup_toList _).filter _) hids).2 fun id => ?_
    simp only [List.mem_filter, Std.HashSet.mem_toList, Std.HashSet.mem_ofList,
      List.contains_iff_mem, Option.any_eq_true, hg.node?_eq_some_iff, beq_iff_eq, List.mem_map,
      decide_eq_true_eq, PathSet.met, List.mem_toFinset]
    grind
  rw [complexity, hcounted.length_eq, List.length_map]

/-! ## what the paths of an entrypoint cover -/

/-- The nodes that can be reached from an entrypoint. -/
def reachedNodes (g : Graph) (entry : String) : Finset String := (g.reachable [entry]).toFinset

/-- The pairs that an edge joins whose source can be reached from an entrypoint. -/
def reachedSteps (g : Graph) (entry : String) : Finset (String × String) :=
  ((g.edges.filter fun e => e.source ∈ g.reachable [entry]).map fun e =>
    (e.source, e.target)).toFinset

/-- The requests that can be reached from an entrypoint. -/
def reachedRequests (g : Graph) (entry : String) : List Node :=
  g.nodes.filter fun n => n.kind = .http ∧ n.id ∈ g.reachable [entry]

/-- What is reached is what the entry leads to, if there is such an entry. -/
theorem WellFormed.mem_reachedNodes_iff (hg : g.WellFormed) {entry a : String} :
    a ∈ g.reachedNodes entry ↔ entry ∈ g.ids ∧ g.Reaches entry a := by
  simp [reachedNodes, hg.mem_reachable_iff]

/-- The steps reached are the edges of what is reached. -/
theorem mem_reachedSteps_iff {entry a b : String} :
    (a, b) ∈ g.reachedSteps entry ↔ a ∈ g.reachedNodes entry ∧ g.Joins a b := by
  simp only [reachedSteps, reachedNodes, List.mem_toFinset, List.mem_map, List.mem_filter, Joins]
  grind

section Cover

variable {entry : String} {limits : PathLimits}

/-- Every path found is a route. -/
theorem WellFormed.exists_route_of_mem_paths (hg : g.WellFormed) {path : List String}
    (h : path ∈ (g.paths entry limits).paths.toList) :
    entry ∈ g.ids ∧
      ∃ r ∈ ConnectorAudit.routes g.successors limits.depth 0 [] entry, r.nodes = path := by
  rw [hg.toList_paths] at h
  obtain ⟨r, hr, hpath⟩ := List.mem_map.1 h
  have hmem : r ∈ g.routes entry limits.depth := List.mem_of_mem_take hr
  have hentry : entry ∈ g.ids := mem_ids_of_mem_routes hmem
  rw [routes, if_pos hentry] at hmem
  exact ⟨hentry, r, hmem, hpath⟩

/-- The paths stay in what can be reached. -/
theorem WellFormed.met_paths_subset (hg : g.WellFormed) :
    (g.paths entry limits).met ⊆ g.reachedNodes entry := by
  intro a ha
  obtain ⟨path, hpath, ha⟩ := PathSet.mem_met_iff.1 ha
  obtain ⟨hentry, r, hr, rfl⟩ := hg.exists_route_of_mem_paths hpath
  exact hg.mem_reachedNodes_iff.2 ⟨hentry, leads_successors_iff.1 (leads_of_mem_route hr ha)⟩

/-- The paths follow the edges. -/
theorem WellFormed.joins_of_mem_used_paths (hg : g.WellFormed) {a b : String}
    (h : (a, b) ∈ (g.paths entry limits).used) : g.Joins a b := by
  obtain ⟨path, hpath, hab⟩ := PathSet.mem_used_iff.1 h
  obtain ⟨-, r, hr, rfl⟩ := hg.exists_route_of_mem_paths hpath
  exact mem_successors_iff.1 (mem_next_of_mem_steps hr hab)

/-- Searching for paths uses no step but those that are reached. -/
theorem WellFormed.used_paths_subset (hg : g.WellFormed) :
    (g.paths entry limits).used ⊆ g.reachedSteps entry := by
  rintro ⟨a, b⟩ hab
  exact mem_reachedSteps_iff.2
    ⟨hg.met_paths_subset (PathSet.mem_met_of_mem_used hab), hg.joins_of_mem_used_paths hab⟩

/-- Paths of which none is missing are all routes, and none of these is cut short. -/
theorem WellFormed.not_cut_and_mem_paths (hg : g.WellFormed)
    (hwhole : (g.paths entry limits).truncated = false) (hentry : entry ∈ g.ids) {r : Route}
    (hr : r ∈ ConnectorAudit.routes g.successors limits.depth 0 [] entry) :
    r.cut = false ∧ r.nodes ∈ (g.paths entry limits).paths.toList := by
  have hmem : r ∈ g.routes entry limits.depth := by rwa [routes, if_pos hentry]
  rw [hg.toList_paths_of_complete hwhole]
  exact ⟨(hg.truncated_paths_eq_false_iff.1 hwhole).2 r hmem, List.mem_map_of_mem hmem⟩

/-- Paths of which none is missing go through all that can be reached. -/
theorem WellFormed.reachedNodes_subset (hg : g.WellFormed)
    (hwhole : (g.paths entry limits).truncated = false) :
    g.reachedNodes entry ⊆ (g.paths entry limits).met := by
  intro a ha
  obtain ⟨hentry, hwalk⟩ := hg.mem_reachedNodes_iff.1 ha
  have hroutes := fun r hr => hg.not_cut_and_mem_paths (r := r) hwhole hentry hr
  obtain ⟨r, hr, ha⟩ :=
    exists_mem_route_of_leads (fun r hr => (hroutes r hr).1) (leads_successors_iff.2 hwalk)
  exact PathSet.mem_met_iff.2 ⟨r.nodes, (hroutes r hr).2, ha⟩

/-- Paths of which none is missing take all edges that can be reached. -/
theorem WellFormed.reachedSteps_subset (hg : g.WellFormed)
    (hwhole : (g.paths entry limits).truncated = false) :
    g.reachedSteps entry ⊆ (g.paths entry limits).used := by
  rintro ⟨a, b⟩ hab
  obtain ⟨ha, hjoins⟩ := mem_reachedSteps_iff.1 hab
  obtain ⟨path, hpath, ha⟩ := PathSet.mem_met_iff.1 (hg.reachedNodes_subset hwhole ha)
  obtain ⟨hentry, r, hr, rfl⟩ := hg.exists_route_of_mem_paths hpath
  have hroutes := fun r hr => hg.not_cut_and_mem_paths (r := r) hwhole hentry hr
  obtain ⟨s, hs, hstep⟩ := exists_step_of_mem_route (fun r hr => (hroutes r hr).1) hr ha
    List.not_mem_nil (mem_successors_iff.2 hjoins)
  exact PathSet.mem_used_iff.2 ⟨s.nodes, (hroutes s hs).2, hstep⟩

end Cover

/-- What the paths of an entrypoint amount to: at most as many nodes, requests and edges as can be
reached from it, and exactly as many if no limit cut something off. -/
theorem complexity_paths (hg : g.Built) (entry : String) (limits : PathLimits) :
    ((g.complexity (g.paths entry limits)).nodes ≤ (g.reachedNodes entry).card ∧
      (g.complexity (g.paths entry limits)).httpNodes ≤ (g.reachedRequests entry).length ∧
      (g.complexity (g.paths entry limits)).edges ≤ (g.reachedSteps entry).card) ∧
    ((g.paths entry limits).truncated = false →
      (g.complexity (g.paths entry limits)).nodes = (g.reachedNodes entry).card ∧
      (g.complexity (g.paths entry limits)).httpNodes = (g.reachedRequests entry).length ∧
      (g.complexity (g.paths entry limits)).edges = (g.reachedSteps entry).card) := by
  have hg : g.WellFormed := hg.wellFormed
  have hmet : (g.paths entry limits).met ⊆ g.reachedNodes entry := hg.met_paths_subset
  have hrequests : ∀ n : Node, n.id ∈ g.reachable [entry] ↔ n.id ∈ g.reachedNodes entry := fun n =>
    List.mem_toFinset.symm
  rw [nodes_complexity, hg.httpNodes_complexity, edges_complexity]
  refine ⟨⟨Finset.card_le_card hmet, ?_, Finset.card_le_card hg.used_paths_subset⟩,
    fun hwhole => ?_⟩
  · refine (List.monotone_filter_right _ fun n hn => ?_).length_le
    simp only [decide_eq_true_eq, hrequests] at hn ⊢
    exact ⟨hn.1, hmet hn.2⟩
  · have heq : (g.paths entry limits).met = g.reachedNodes entry :=
      hmet.antisymm (hg.reachedNodes_subset hwhole)
    rw [hg.used_paths_subset.antisymm (hg.reachedSteps_subset hwhole), heq]
    simp [reachedRequests, hrequests]

/-- Two nodes that call each other, one of which calls itself, a request that both of them
make, and a caller that neither of them leads to. -/
def crossroads : List Change :=
  [.node ⟨"r", "GET /", .http⟩, .edge ⟨"a", "b", .empty⟩, .edge ⟨"b", "a", .empty⟩,
    .edge ⟨"a", "r", .empty⟩, .edge ⟨"b", "r", .empty⟩, .edge ⟨"b", "b", .empty⟩,
    .edge ⟨"c", "a", .empty⟩]

/-- All five edges between the three nodes are counted, and the caller is not. -/
theorem complexity_crossroads :
    ((ofChanges crossroads).paths "a" {}).truncated = false ∧
      ((ofChanges crossroads).complexity ((ofChanges crossroads).paths "a" {})).nodes = 3 ∧
      ((ofChanges crossroads).complexity ((ofChanges crossroads).paths "a" {})).httpNodes = 1 ∧
      ((ofChanges crossroads).complexity ((ofChanges crossroads).paths "a" {})).edges = 5 := by
  have hwhole : ((ofChanges crossroads).paths "a" {}).truncated = false := by decide +kernel
  have hrows : (ofChanges crossroads).adjacency =
      [("r", []), ("a", ["b", "r"]), ("b", ["a", "r", "b"]), ("c", ["a"])] := by decide +kernel
  have hids : (ofChanges crossroads).ids = ["r", "a", "b", "c"] := by decide +kernel
  have hseeds : ["a"].filter (ofChanges crossroads).contains = ["a"] := by decide +kernel
  have hreached : (ofChanges crossroads).reachable ["a"] = ["a", "b", "r"] := by
    rw [Graph.reachable, hrows, hids, hseeds]
    simp +decide [reach, Adjacency.next, List.lookup_cons]
  obtain ⟨hnodes, hrequests, hedges⟩ :=
    (complexity_paths ⟨crossroads, rfl⟩ "a" {}).2 hwhole
  refine ⟨hwhole, ?_, ?_, ?_⟩
  · rw [hnodes, reachedNodes, hreached]
    decide
  · rw [hrequests, reachedRequests, hreached]
    decide
  · rw [hedges, reachedSteps, hreached]
    decide

end Graph

end ConnectorAudit
