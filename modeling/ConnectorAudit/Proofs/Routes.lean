import ConnectorAudit.Graph.Paths
import ConnectorAudit.Proofs.Growth

/-!
# Routes

The paths from an entrypoint as a plain enumeration, with no limit on their
number and no state carried along: `routes` lists them in the order of a
depth-first search, each with a mark that says whether the limit on the depth cut
it short.

The search that runs puts each node on its path, marks it while it goes on from it,
and takes it off again; it keeps what it has found and looks at the limit on their
number before it enters a node.  `PathWalk.visit_eq_extend` says that it comes back
with its path and its marks as they were, and that what it has found is what was
found before and as many of the routes as there is room for; `Graph.paths_eq_take` is
the result for a graph.
-/

namespace ConnectorAudit

/-- A path from an entrypoint. -/
structure Route where
  nodes : List String
  /-- Whether the limit on the depth cut it short. -/
  cut : Bool
  deriving DecidableEq, Repr

/-- The route with some nodes in front. -/
def Route.behind (front : List String) (r : Route) : Route := { r with nodes := front ++ r.nodes }

/-- All paths on from `node`, which is `depth` edges behind the entrypoint; `before` holds the
nodes on the way to it. -/
def routes (next : String → List String) (limit depth : Nat) (before : List String)
    (node : String) : List Route :=
  if node ∈ before ∨ next node = [] then [⟨[node], false⟩]
  else if limit ≤ depth then [⟨[node], true⟩]
  else
    (next node).flatMap fun n =>
      (routes next limit (depth + 1) (node :: before) n).map (Route.behind [node])
termination_by limit - depth

namespace Route

@[simp]
theorem behind_nil : Route.behind [] = id := rfl

theorem behind_behind (front middle : List String) (r : Route) :
    (r.behind middle).behind front = r.behind (front ++ middle) := by
  simp [behind]

end Route

/-! ## the enumeration -/

section Routes

variable {next : String → List String} {limit depth : Nat} {before : List String} {node : String}

/-- A path ends where it comes back to a node, and where no edge leads on. -/
theorem routes_of_ends (h : node ∈ before ∨ next node = []) :
    routes next limit depth before node = [⟨[node], false⟩] := by
  rw [routes, if_pos h]

/-- A path that could go on is cut at the limit on the depth. -/
theorem routes_of_limit_le (h : ¬(node ∈ before ∨ next node = [])) (hlimit : limit ≤ depth) :
    routes next limit depth before node = [⟨[node], true⟩] := by
  rw [routes, if_neg h, if_pos hlimit]

/-- Before the limit, a path goes on to each of the next nodes. -/
theorem routes_of_lt_limit (h : ¬(node ∈ before ∨ next node = [])) (hlimit : depth < limit) :
    routes next limit depth before node =
      (next node).flatMap fun n =>
        (routes next limit (depth + 1) (node :: before) n).map (Route.behind [node]) := by
  rw [routes, if_neg h, if_neg (Nat.not_le.2 hlimit)]

/-- A path on from one of the next nodes is a path on from the node. -/
theorem behind_mem_flatMap {n : String} {r : Route} (hn : n ∈ next node)
    (hr : r ∈ routes next limit depth before n) :
    r.behind [node] ∈ (next node).flatMap fun n =>
      (routes next limit depth before n).map (Route.behind [node]) :=
  List.mem_flatMap.2 ⟨n, hn, List.mem_map_of_mem hr⟩

/-- Every node begins a route. -/
theorem routes_ne_nil : routes next limit depth before node ≠ [] := by
  fun_induction routes next limit depth before node with
  | case1 => simp
  | case2 => simp
  | case3 depth before node hgoes _ ih =>
    obtain ⟨n, hn⟩ := List.exists_mem_of_ne_nil _ fun hnil => hgoes (.inr hnil)
    intro hnil
    have hempty := List.flatMap_eq_nil_iff.1 hnil n hn
    exact ih n (List.map_eq_nil_iff.1 hempty)

end Routes

/-! ## the search -/

namespace PathSet

/-- What was found, and then as many of some routes as the limit on their number leaves room
for. -/
def extend (limit : Nat) (found : PathSet) (more : List Route) : PathSet where
  paths := found.paths ++ ((more.take (limit - found.paths.size)).map Route.nodes).toArray
  truncated :=
    found.truncated || (more.take (limit - found.paths.size)).any Route.cut ||
      decide (limit - found.paths.size < more.length)

variable {limit : Nat} {found : PathSet}

@[simp]
theorem extend_nil : found.extend limit [] = found := by
  simp [extend]

/-- Routes may be taken in one list after the other. -/
theorem extend_extend (first more : List Route) :
    (found.extend limit first).extend limit more = found.extend limit (first ++ more) := by
  have hsize : (found.extend limit first).paths.size =
      found.paths.size + min (limit - found.paths.size) first.length := by
    simp [extend]
  have hroom : limit - (found.extend limit first).paths.size =
      limit - found.paths.size - first.length := by omega
  rw [extend, hroom]
  simp only [extend, mk.injEq, List.take_append, List.map_append, List.any_append,
    List.length_append]
  constructor
  · simp
  · rw [Bool.eq_iff_iff]
    simp only [Bool.or_eq_true, decide_eq_true_eq]
    have hlonger : limit - found.paths.size < first.length ∨
        limit - found.paths.size - first.length < more.length ↔
          limit - found.paths.size < first.length + more.length := by omega
    rw [← hlonger]
    grind

/-- Where there is no room, at least one route more makes the result a truncated one. -/
theorem extend_of_full (hfull : limit ≤ found.paths.size) {more : List Route} (hmore : more ≠ []) :
    found.extend limit more = { found with truncated := true } := by
  have hroom : limit - found.paths.size = 0 := Nat.sub_eq_zero_of_le hfull
  have hpos : 0 < more.length := List.length_pos_iff.2 hmore
  simp [extend, hroom, hpos]

/-- A path that there is room for is added. -/
theorem extend_singleton (hroom : found.paths.size < limit) (r : Route) :
    found.extend limit [r] =
      { paths := found.paths.push r.nodes, truncated := found.truncated || r.cut } := by
  obtain ⟨k, hk⟩ : ∃ k, limit - found.paths.size = k + 1 := ⟨limit - found.paths.size - 1, by omega⟩
  simp [extend, hk]

end PathSet

namespace PathWalk

/-- The walk at the same place, with some routes added to what it found. -/
def extend (limit : Nat) (w : PathWalk) (more : List Route) : PathWalk :=
  { w with found := w.found.extend limit more }

section Visit

variable {next : String → List String} {limits : PathLimits} {node : String} {w : PathWalk}

/-- A walk that has found enough stops. -/
theorem visit_of_full (depth : Nat) (hfull : limits.paths ≤ w.found.paths.size) :
    w.visit next limits depth node = w.truncate := by
  rw [visit, if_pos hfull]

/-- A walk ends a path at a node it has met, or that leads nowhere. -/
theorem visit_of_ends (depth : Nat) (hroom : w.found.paths.size < limits.paths)
    (h : node ∈ w.onPath ∨ next node = []) :
    w.visit next limits depth node =
      { w with found.paths := w.found.paths.push (w.path.toList ++ [node]) } := by
  rw [visit]
  simp [Nat.not_le.2 hroom, h, record]

/-- A walk cuts a path at the depth that is allowed. -/
theorem visit_of_limit_le {depth : Nat} (hroom : w.found.paths.size < limits.paths)
    (h : ¬(node ∈ w.onPath ∨ next node = [])) (hlimit : limits.depth ≤ depth) :
    w.visit next limits depth node =
      { w with
        found.paths := w.found.paths.push (w.path.toList ++ [node])
        found.truncated := true } := by
  rw [visit]
  simp [Nat.not_le.2 hroom, h, hlimit, record, truncate]

/-- On the way to the nodes that follow, the node is on the path and marked; then it is taken off
both. -/
theorem visit_of_lt_limit {depth : Nat} (hroom : w.found.paths.size < limits.paths)
    (h : ¬(node ∈ w.onPath ∨ next node = [])) (hlimit : depth < limits.depth) :
    w.visit next limits depth node =
      let back := (next node).foldl (fun w node => w.visit next limits (depth + 1) node)
        { w with path := w.path.push node, onPath := node :: w.onPath }
      { back with path := back.path.pop, onPath := back.onPath.erase node } := by
  have hnew : w.onPath.insert node = node :: w.onPath :=
    List.insert_of_not_mem fun hmem => h (.inl hmem)
  rw [visit]
  simp [Nat.not_le.2 hroom, h, Nat.not_le.2 hlimit, hnew]

end Visit

/-- A walk that goes to one node after the other, and finds the routes of each. -/
theorem foldl_eq_extend {f : PathWalk → String → PathWalk} {listed : String → List Route}
    {limit : Nat} {w : PathWalk}
    (h : ∀ found n, f { w with found } n = extend limit { w with found } (listed n))
    (ns : List String) : ns.foldl f w = w.extend limit (ns.flatMap listed) := by
  have hrun : ∀ found, ns.foldl f { w with found } =
      extend limit { w with found } (ns.flatMap listed) := by
    induction ns with
    | nil => simp [extend]
    | cons n ns ih =>
      intro found
      rw [List.foldl_cons, h, extend, ih, extend, PathSet.extend_extend, List.flatMap_cons]
      rfl
  exact hrun w.found

/-- A visit leaves the path and the marks as they were, and finds the routes on from the node as far
as there is room. -/
theorem visit_eq_extend (next : String → List String) (limits : PathLimits) (depth : Nat)
    (node : String) (w : PathWalk) :
    w.visit next limits depth node =
      w.extend limits.paths
        ((routes next limits.depth depth w.onPath node).map (Route.behind w.path.toList)) := by
  generalize hbefore : w.onPath = before
  -- Without room nothing is listed, but there is a route that is left out.
  have hfull : ∀ depth before node (w : PathWalk), limits.paths ≤ w.found.paths.size →
      w.visit next limits depth node = w.extend limits.paths
        ((routes next limits.depth depth before node).map (Route.behind w.path.toList)) := by
    intro depth before node w hfull
    rw [visit_of_full _ hfull, extend,
      PathSet.extend_of_full hfull (by simpa using routes_ne_nil), truncate]
  fun_induction routes next limits.depth depth before node generalizing w with
  | case1 depth before node hends =>
    rcases Nat.lt_or_ge w.found.paths.size limits.paths with hroom | hnone
    · rw [visit_of_ends _ hroom (hbefore ▸ hends), List.map_singleton, extend,
        PathSet.extend_singleton hroom]
      simp [Route.behind]
    · rw [hfull depth before node w hnone, routes_of_ends hends]
  | case2 depth before node hgoes hlimit =>
    rcases Nat.lt_or_ge w.found.paths.size limits.paths with hroom | hnone
    · rw [visit_of_limit_le hroom (hbefore ▸ hgoes) hlimit, List.map_singleton, extend,
        PathSet.extend_singleton hroom]
      simp [Route.behind]
    · rw [hfull depth before node w hnone, routes_of_limit_le hgoes hlimit]
  | case3 depth before node hgoes hlimit ih =>
    rcases Nat.lt_or_ge w.found.paths.size limits.paths with hroom | hnone
    · have hnext : ∀ (found : PathSet) (n : String),
          visit next limits (depth + 1) n ⟨w.path.push node, node :: w.onPath, found⟩ =
            extend limits.paths ⟨w.path.push node, node :: w.onPath, found⟩
              ((routes next limits.depth (depth + 1) (node :: before) n).map
                (Route.behind (w.path.push node).toList)) :=
        fun found n => ih n _ (by rw [hbefore])
      rw [visit_of_lt_limit hroom (hbefore ▸ hgoes) (Nat.not_le.1 hlimit), foldl_eq_extend hnext]
      simp [extend, List.map_flatMap, Function.comp_def, Route.behind_behind]
    · rw [hfull depth before node w hnone, routes_of_lt_limit hgoes (Nat.not_le.1 hlimit)]

end PathWalk

namespace Graph

/-- All paths from an entrypoint, up to a depth; none if it is no node. -/
def routes (g : Graph) (entry : String) (depth : Nat) : List Route :=
  if entry ∈ g.ids then ConnectorAudit.routes g.successors depth 0 [] entry else []

/-- The search of a graph takes its routes, as far as there is room. -/
theorem WellFormed.paths_eq_extend {g : Graph} (h : g.WellFormed) (entry : String)
    (limits : PathLimits) :
    g.paths entry limits = PathSet.extend limits.paths {} (g.routes entry limits.depth) := by
  unfold paths Adjacency.paths routes
  rw [lookup_adjacency, h.next_adjacency]
  by_cases hentry : entry ∈ g.ids
  · rw [if_pos hentry, if_pos hentry, Option.isSome_some, if_pos rfl, PathWalk.visit_eq_extend]
    simp [PathWalk.extend]
  · rw [if_neg hentry, if_neg hentry]
    exact PathSet.extend_nil.symm

section Paths

variable {g : Graph} {entry : String} {limits : PathLimits}

namespace WellFormed

variable (h : g.WellFormed)

include h

/-- The paths that are found are the first routes. -/
theorem toList_paths :
    (g.paths entry limits).paths.toList =
      ((g.routes entry limits.depth).take limits.paths).map Route.nodes := by
  simp [h.paths_eq_extend, PathSet.extend]

/-- A search is truncated if there are too many routes, or if one of them was cut. -/
theorem truncated_paths_iff :
    (g.paths entry limits).truncated = true ↔
      limits.paths < (g.routes entry limits.depth).length ∨
        ∃ r ∈ (g.routes entry limits.depth).take limits.paths, r.cut = true := by
  simp [h.paths_eq_extend, PathSet.extend, or_comm]

/-- A result is a complete one if there is room for all routes and none is cut short. -/
theorem truncated_paths_eq_false_iff :
    (g.paths entry limits).truncated = false ↔
      (g.routes entry limits.depth).length ≤ limits.paths ∧
        ∀ r ∈ g.routes entry limits.depth, r.cut = false := by
  rw [← Bool.not_eq_true, h.truncated_paths_iff, not_or, Nat.not_lt]
  refine and_congr_right fun hroom => ?_
  simp [List.take_of_length_le hroom]

/-- A complete result holds all routes. -/
theorem toList_paths_of_complete (hwhole : (g.paths entry limits).truncated = false) :
    (g.paths entry limits).paths.toList = (g.routes entry limits.depth).map Route.nodes := by
  rw [h.toList_paths, List.take_of_length_le (h.truncated_paths_eq_false_iff.1 hwhole).1]

end WellFormed

theorem mem_ids_of_mem_routes {depth : Nat} {r : Route} (h : r ∈ g.routes entry depth) :
    entry ∈ g.ids := by
  unfold routes at h
  split at h
  · assumption
  · cases h

end Paths

/-- In every graph that changes make, the paths found are the first ones of the enumeration, as many
as the limit on their number allows; the result is a truncated one exactly if the entrypoint is a
node and there are more of them or one of those found is cut short. -/
theorem paths_eq_take (changes : List Change) (entry : String) (limits : PathLimits) :
    let g := ofChanges changes
    (g.paths entry limits).paths.toList =
        ((g.routes entry limits.depth).take limits.paths).map Route.nodes ∧
      ((g.paths entry limits).truncated = true ↔
        entry ∈ g.ids ∧
          (limits.paths < (g.routes entry limits.depth).length ∨
            ∃ r ∈ (g.routes entry limits.depth).take limits.paths, r.cut = true)) := by
  intro g
  have h : g.WellFormed := wellFormed_ofChanges changes
  refine ⟨h.toList_paths, h.truncated_paths_iff.trans (iff_and_self.2 ?_)⟩
  rintro (hmore | ⟨r, hr, -⟩)
  · obtain ⟨r, hr⟩ := List.exists_mem_of_length_pos (Nat.zero_lt_of_lt hmore)
    exact mem_ids_of_mem_routes hr
  · exact mem_ids_of_mem_routes (List.mem_of_mem_take hr)

end Graph

end ConnectorAudit
