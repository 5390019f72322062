import Mathlib.Data.List.Nodup
import ConnectorAudit.Proofs.Complexity

/-!
# The paths found are the terminal ones

A walk is terminal if it ends as soon as it can: its last node is the first one
that it has been through before, or nothing leads on from there.  `Terminal` says
this of a walk that goes on from some nodes, and has one equation for a walk of one
node and one for a longer walk; the enumeration of the routes has the same cases,
so that routes of which none is cut short are the terminal walks
(`exists_route_iff`), each listed once (`nodup_routes`).

`Graph.paths_terminal` is the result for the search of a graph.
-/

namespace ConnectorAudit

/-- A walk along `next`, on from the nodes in `before`, that goes through no node twice and ends
where it comes to a node for the second time or where nothing leads on. -/
structure Terminal (next : String → List String) (before path : List String) : Prop where
  joined : path.IsChain fun a b => b ∈ next a
  /-- Only the last node may be one that was on the way before. -/
  fresh : ∀ a ∈ path.dropLast, a ∉ before
  distinct : path.dropLast.Nodup
  ends : ∃ last, path.getLast? = some last ∧
    (last ∈ before ∨ last ∈ path.dropLast ∨ next last = [])

section Routes

variable {next : String → List String} {limit depth : Nat} {before rest path : List String}
  {a b node : String}

theorem terminal_singleton_iff : Terminal next before [a] ↔ a ∈ before ∨ next a = [] := by
  constructor
  · rintro ⟨-, -, -, last, hlast, hends⟩
    obtain rfl : a = last := by simpa using hlast
    simpa using hends
  · exact fun hends => ⟨List.IsChain.singleton a, by simp, by simp, a, rfl, by simpa using hends⟩

/-- A longer walk takes one step and is terminal from there on. -/
theorem terminal_cons_cons_iff :
    Terminal next before (a :: b :: rest) ↔
      b ∈ next a ∧ a ∉ before ∧ Terminal next (a :: before) (b :: rest) := by
  have hlast : (a :: b :: rest).getLast? = (b :: rest).getLast? := List.getLast?_cons_cons
  have hfront : (a :: b :: rest).dropLast = a :: (b :: rest).dropLast := rfl
  constructor
  · rintro ⟨hjoined, hfresh, hdistinct, last, hends⟩
    obtain ⟨hstep, hjoined⟩ := List.isChain_cons_cons.1 hjoined
    rw [hfront] at hfresh hdistinct hends
    obtain ⟨hnew, hdistinct⟩ := List.nodup_cons.1 hdistinct
    refine ⟨hstep, hfresh a List.mem_cons_self, hjoined, fun c hc => ?_, hdistinct, last, ?_⟩
    · have hne : c ≠ a := fun heq => hnew (heq ▸ hc)
      simpa [hne] using hfresh c (List.mem_cons_of_mem a hc)
    · rw [hlast] at hends
      simp only [List.mem_cons] at hends ⊢
      grind
  · rintro ⟨hstep, hnew, hjoined, hfresh, hdistinct, last, hends⟩
    refine ⟨List.isChain_cons_cons.2 ⟨hstep, hjoined⟩, ?_, ?_, last, ?_⟩
    · rw [hfront]
      grind
    · rw [hfront]
      exact List.nodup_cons.2 ⟨fun ha => hfresh a ha List.mem_cons_self, hdistinct⟩
    · rw [hlast, hfront]
      simp only [List.mem_cons] at hends ⊢
      grind

/-- If no route is cut short, the routes on from a node are the terminal walks that begin with
it. -/
theorem exists_route_iff (hcut : ∀ r ∈ routes next limit depth before node, r.cut = false) :
    (∃ r ∈ routes next limit depth before node, r.nodes = path) ↔
      path.head? = some node ∧ Terminal next before path := by
  fun_induction routes next limit depth before node generalizing path with
  | case1 depth before node hends =>
    constructor
    · rintro ⟨r, hr, rfl⟩
      rw [List.mem_singleton.1 hr]
      exact ⟨rfl, terminal_singleton_iff.2 hends⟩
    · rintro ⟨hhead, hterminal⟩
      obtain ⟨rest, rfl⟩ := List.head?_eq_some_iff.1 hhead
      cases rest with
      | nil => exact ⟨_, List.mem_singleton_self _, rfl⟩
      | cons b rest =>
        -- A walk that can end here does not go on.
        obtain ⟨hstep, hnew, -⟩ := terminal_cons_cons_iff.1 hterminal
        rcases hends with hbefore | hnil
        · exact absurd hbefore hnew
        · rw [hnil] at hstep
          cases hstep
  | case2 => exact absurd (hcut _ (List.mem_singleton_self _)) (by simp)
  | case3 depth before node hgoes _ ih =>
    have hcut' : ∀ n ∈ next node, ∀ r ∈ routes next limit (depth + 1) (node :: before) n,
        r.cut = false := fun n hn r hr => hcut (r.behind [node]) (behind_mem_flatMap hn hr)
    constructor
    · rintro ⟨r, hr, rfl⟩
      obtain ⟨n, hn, hr⟩ := List.mem_flatMap.1 hr
      obtain ⟨s, hs, rfl⟩ := List.mem_map.1 hr
      obtain ⟨hhead, hterminal⟩ := (ih n (hcut' n hn)).1 ⟨s, hs, rfl⟩
      obtain ⟨rest, hrest⟩ := List.head?_eq_some_iff.1 hhead
      rw [hrest] at hterminal
      rw [Route.behind, hrest]
      exact ⟨rfl, terminal_cons_cons_iff.2 ⟨hn, fun h => hgoes (.inl h), hterminal⟩⟩
    · rintro ⟨hhead, hterminal⟩
      obtain ⟨rest, rfl⟩ := List.head?_eq_some_iff.1 hhead
      cases rest with
      | nil => exact absurd (terminal_singleton_iff.1 hterminal) hgoes
      | cons b rest =>
        obtain ⟨hstep, -, hterminal⟩ := terminal_cons_cons_iff.1 hterminal
        obtain ⟨s, hs, hnodes⟩ := (ih b (hcut' b hstep)).2 ⟨rfl, hterminal⟩
        exact ⟨s.behind [node], behind_mem_flatMap hstep hs, by rw [Route.behind, hnodes]; rfl⟩

/-- Where nothing follows a node twice, no route is listed twice. -/
theorem nodup_routes (hnext : ∀ a, (next a).Nodup) :
    ((routes next limit depth before node).map Route.nodes).Nodup := by
  fun_induction routes next limit depth before node with
  | case1 => exact List.nodup_singleton _
  | case2 => exact List.nodup_singleton _
  | case3 depth before node _ _ ih =>
    have hnodes : ∀ n, ((routes next limit (depth + 1) (node :: before) n).map
        (Route.behind [node])).map Route.nodes =
          ((routes next limit (depth + 1) (node :: before) n).map Route.nodes).map (node :: ·) := by
      intro n
      simp [Route.behind]
    rw [List.map_flatMap]
    simp only [hnodes]
    refine List.nodup_flatMap.2 ⟨fun n _ => (ih n).map List.cons_injective, ?_⟩
    -- Routes that go on to different nodes differ in their second node.
    refine (hnext node).imp fun {m n} hne => ?_
    simp only [Function.onFun, List.disjoint_left, List.mem_map]
    rintro path ⟨p, ⟨r, hr, rfl⟩, rfl⟩ ⟨q, ⟨s, hs, rfl⟩, heq⟩
    obtain ⟨rest, hrest⟩ := exists_cons_of_mem_routes hr
    obtain ⟨rest', hrest'⟩ := exists_cons_of_mem_routes hs
    rw [hrest, hrest'] at heq
    exact hne (List.cons.inj (List.cons.inj heq).2).1.symm

/-- A route has no more edges than the limit leaves. -/
theorem length_route_le (hdepth : depth ≤ limit) {r : Route}
    (hr : r ∈ routes next limit depth before node) : r.nodes.length + depth ≤ limit + 1 := by
  fun_induction routes next limit depth before node generalizing r with
  | case1 =>
    rw [List.mem_singleton.1 hr, List.length_singleton]
    omega
  | case2 =>
    rw [List.mem_singleton.1 hr, List.length_singleton]
    omega
  | case3 depth before node _ hlimit ih =>
    obtain ⟨n, -, hr⟩ := List.mem_flatMap.1 hr
    obtain ⟨s, hs, rfl⟩ := List.mem_map.1 hr
    have hlength := ih n (by omega) hs
    rw [Route.behind, List.length_append, List.length_singleton]
    omega

end Routes

namespace Graph

/-- A walk along edges that begins at `entry`, goes through no node twice and ends where it comes
to a node for the second time or where no edge leads on. -/
structure TerminalPath (g : Graph) (entry : String) (path : List String) : Prop where
  head : path.head? = some entry
  joined : path.IsChain g.Joins
  distinct : path.dropLast.Nodup
  ends : ∃ last, path.getLast? = some last ∧ (last ∈ path.dropLast ∨ ∀ b, ¬g.Joins last b)

variable {g : Graph} {entry : String} {limits : PathLimits} {path : List String}

/-- A terminal path begins at its entry and ends where it has to. -/
theorem terminalPath_iff :
    g.TerminalPath entry path ↔ path.head? = some entry ∧ Terminal g.successors [] path := by
  have hjoins : (fun a b => b ∈ g.successors a) = g.Joins := by
    funext a b
    exact propext mem_successors_iff
  have hsink : ∀ a, g.successors a = [] ↔ ∀ b, ¬g.Joins a b := by
    intro a
    simp only [List.eq_nil_iff_forall_not_mem, mem_successors_iff]
  constructor
  · rintro ⟨hhead, hjoined, hdistinct, last, hlast, hends⟩
    refine ⟨hhead, hjoins ▸ hjoined, fun _ _ => List.not_mem_nil, hdistinct, last, hlast, ?_⟩
    exact .inr (hends.imp_right (hsink last).2)
  · rintro ⟨hhead, hjoined, -, hdistinct, last, hlast, hends⟩
    refine ⟨hhead, hjoins ▸ hjoined, hdistinct, last, hlast, ?_⟩
    exact (hends.resolve_left List.not_mem_nil).imp_right (hsink last).1

/-- A complete result holds the terminal paths. -/
theorem WellFormed.mem_paths_iff_terminalPath (h : g.WellFormed) (hentry : entry ∈ g.ids)
    (hwhole : (g.paths entry limits).truncated = false) :
    path ∈ (g.paths entry limits).paths.toList ↔ g.TerminalPath entry path := by
  have hcut := (h.truncated_paths_eq_false_iff.1 hwhole).2
  rw [routes, if_pos hentry] at hcut
  rw [h.toList_paths_of_complete hwhole, routes, if_pos hentry, List.mem_map,
    exists_route_iff hcut, terminalPath_iff]

/-- No path is found twice. -/
theorem WellFormed.nodup_paths (h : g.WellFormed) :
    (g.paths entry limits).paths.toList.Nodup := by
  rw [h.toList_paths, List.map_take]
  refine List.Nodup.sublist (List.take_sublist _ _) ?_
  unfold routes
  split
  · exact nodup_routes g.nodup_successors
  · exact List.nodup_nil

/-- **Paths.** In every graph that changes make: if no limit cut something off, the paths found from
a node are exactly the terminal ones, each once.  Whatever the limits, a path has at most one node
more than the limit on the depth says, and there are at most as many paths as the limit on their
number says. -/
theorem paths_terminal (changes : List Change) (entry : String) (limits : PathLimits) :
    let g := ofChanges changes
    (entry ∈ g.ids → (g.paths entry limits).truncated = false →
      (g.paths entry limits).paths.toList.Nodup ∧
        ∀ path, path ∈ (g.paths entry limits).paths.toList ↔ g.TerminalPath entry path) ∧
      (∀ path ∈ (g.paths entry limits).paths.toList, path.length ≤ limits.depth + 1) ∧
      (g.paths entry limits).paths.toList.length ≤ limits.paths := by
  intro g
  have h : g.WellFormed := wellFormed_ofChanges changes
  refine ⟨fun hentry hwhole =>
      ⟨h.nodup_paths, fun path => h.mem_paths_iff_terminalPath hentry hwhole⟩,
    fun path hpath => ?_, ?_⟩
  · obtain ⟨-, r, hr, rfl⟩ := h.exists_route_of_mem_paths hpath
    exact length_route_le (Nat.zero_le _) hr
  · rw [h.toList_paths, List.length_map]
    exact List.length_take_le _ _

/-- Two ways to a node that has a loop, leads back to one of the ways, and leads on to a last
node. -/
def diamondWithLoop : List Change :=
  [.edge ⟨"a", "b", .empty⟩, .edge ⟨"a", "c", .empty⟩, .edge ⟨"b", "d", .empty⟩,
    .edge ⟨"c", "d", .empty⟩, .edge ⟨"d", "b", .empty⟩, .edge ⟨"d", "d", .empty⟩,
    .edge ⟨"d", "e", .empty⟩]

/-- On the second way the node in the middle of the first one is new, and the path goes on from it;
a limit on the depth cuts it short. -/
theorem paths_terminal_diamondWithLoop :
    ("a" ∈ (ofChanges diamondWithLoop).ids ∧
      ((ofChanges diamondWithLoop).paths "a" {}).truncated = false ∧
      ((ofChanges diamondWithLoop).paths "a" {}).paths.toList =
        [["a", "b", "d", "b"], ["a", "b", "d", "d"], ["a", "b", "d", "e"],
          ["a", "c", "d", "b", "d"], ["a", "c", "d", "d"], ["a", "c", "d", "e"]] ∧
      (ofChanges diamondWithLoop).TerminalPath "a" ["a", "c", "d", "b", "d"] ∧
      ¬(ofChanges diamondWithLoop).TerminalPath "a" ["a", "c", "d", "b"]) ∧
      ["a", "c", "d"] ∈ ((ofChanges diamondWithLoop).paths "a" { depth := 2 }).paths.toList ∧
      ["a", "c", "d"].length ≤ 2 + 1 := by
  have hentry : "a" ∈ (ofChanges diamondWithLoop).ids := by decide
  have hwhole : ((ofChanges diamondWithLoop).paths "a" {}).truncated = false := by decide +kernel
  have hfound : ((ofChanges diamondWithLoop).paths "a" {}).paths.toList =
      [["a", "b", "d", "b"], ["a", "b", "d", "d"], ["a", "b", "d", "e"],
        ["a", "c", "d", "b", "d"], ["a", "c", "d", "d"], ["a", "c", "d", "e"]] := by
    decide +kernel
  have hcut : ["a", "c", "d"] ∈
      ((ofChanges diamondWithLoop).paths "a" { depth := 2 }).paths.toList := by
    decide +kernel
  have hterminal := ((paths_terminal _ "a" {}).1 hentry hwhole).2
  rw [hfound] at hterminal
  exact ⟨⟨hentry, hwhole, hfound, (hterminal _).1 (by decide), fun h =>
    absurd ((hterminal _).2 h) (by decide)⟩, hcut, (paths_terminal _ "a" { depth := 2 }).2.1 _ hcut⟩

end Graph

end ConnectorAudit
