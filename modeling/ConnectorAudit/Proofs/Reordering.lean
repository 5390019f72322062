import Mathlib.Data.List.Perm.Basic
import ConnectorAudit.Proofs.Complexity
import ConnectorAudit.Proofs.Cycles
import ConnectorAudit.Proofs.Hotspots
import ConnectorAudit.Proofs.Sorting

/-!
# The order of insertion does not show

Two graphs with the same nodes and the same edges may hold them in different
orders, and the searches go through them in these orders.  What they come to is the
same: each result is made of lists that are permutations of each other in the two
graphs, and is sorted, counted or taken as a set at the end.

The paths are the delicate case, since the limit on their number keeps the first
ones.  The two lists of routes are permutations of each other, so either both are too
long or everything is kept in both: `Graph.SameParts.truncated_paths_eq`.
-/

namespace ConnectorAudit

open Relation

/-! ## routes -/

/-- If the next nodes come in another order, so do the routes. -/
theorem routes_perm {next next' : String → List String} (hnext : ∀ a, (next a).Perm (next' a))
    (limit depth : Nat) (before : List String) (node : String) :
    (routes next limit depth before node).Perm (routes next' limit depth before node) := by
  have hnil : ∀ a, next a = [] ↔ next' a = [] := fun a =>
    ⟨fun h => List.perm_nil.1 (h ▸ (hnext a).symm), fun h => List.perm_nil.1 (h ▸ hnext a)⟩
  fun_induction routes next limit depth before node with
  | case1 depth before node hends =>
    rw [hnil] at hends
    rw [routes_of_ends hends]
  | case2 depth before node hgoes hlimit =>
    rw [hnil] at hgoes
    rw [routes_of_limit_le hgoes hlimit]
  | case3 depth before node hgoes hlimit ih =>
    rw [hnil] at hgoes
    rw [routes_of_lt_limit hgoes (Nat.not_le.1 hlimit)]
    exact (hnext node).flatMap fun n _ => (ih n).map _

namespace Graph

/-- The same nodes and the same edges, in whatever order. -/
structure SameParts (g h : Graph) : Prop where
  nodes : ∀ n, n ∈ g.nodes ↔ n ∈ h.nodes
  edges : ∀ e, e ∈ g.edges ↔ e ∈ h.edges

variable {g h : Graph}

namespace SameParts

/-- The same parts are joined alike. -/
theorem joins_iff (hsame : g.SameParts h) {a b : String} : g.Joins a b ↔ h.Joins a b := by
  simp only [Joins, hsame.edges]

theorem reaches_iff (hsame : g.SameParts h) {a b : String} : g.Reaches a b ↔ h.Reaches a b := by
  have hjoins : g.Joins = h.Joins := by
    funext a b
    exact propext hsame.joins_iff
  rw [Reaches, Reaches, hjoins]

/-- The same parts have the same nodes, in some order. -/
theorem nodes_perm (hsame : g.SameParts h) (hg : g.WellFormed) (hh : h.WellFormed) :
    g.nodes.Perm h.nodes :=
  (List.perm_ext_iff_of_nodup hg.nodup.of_map hh.nodup.of_map).2 hsame.nodes

theorem ids_perm (hsame : g.SameParts h) (hg : g.WellFormed) (hh : h.WellFormed) :
    g.ids.Perm h.ids :=
  (hsame.nodes_perm hg hh).map _

/-- The same parts have the same successors, in some order. -/
theorem successors_perm (hsame : g.SameParts h) (a : String) :
    (g.successors a).Perm (h.successors a) := by
  refine (List.perm_ext_iff_of_nodup (nodup_successors g a) (nodup_successors h a)).2 fun b => ?_
  rw [mem_successors_iff, mem_successors_iff, hsame.joins_iff]

/-! ## what the searches come to -/

/-- The same parts have the same nodes reachable, in some order. -/
theorem reachable_perm (hsame : g.SameParts h) (hg : g.WellFormed) (hh : h.WellFormed)
    {seeds seeds' : List String} (hseeds : seeds.Perm seeds') :
    (g.reachable seeds).Perm (h.reachable seeds') := by
  refine (List.perm_ext_iff_of_nodup (hg.nodup_reachable seeds) (hh.nodup_reachable seeds')).2
    fun b => ?_
  simp only [hg.mem_reachable_iff, hh.mem_reachable_iff, hseeds.mem_iff,
    (hsame.ids_perm hg hh).mem_iff, hsame.reaches_iff]

/-- The same parts have the same components, in some order. -/
theorem components_perm (hsame : g.SameParts h) (hg : g.WellFormed) (hh : h.WellFormed) :
    g.components.Perm h.components := by
  refine (List.perm_ext_iff_of_nodup hg.nodup_components hh.nodup_components).2 fun c => ?_
  simp only [hg.mem_components_iff, hh.mem_components_iff, (hsame.ids_perm hg hh).mem_iff,
    hsame.reaches_iff]

/-- The same parts have the same cycles, in the same order. -/
theorem cycles_eq (hsame : g.SameParts h) (hg : g.WellFormed) (hh : h.WellFormed) :
    g.cycles = h.cycles := by
  have hloops : g.selfLoops.contains = h.selfLoops.contains := by
    funext a
    rw [Bool.eq_iff_iff, List.contains_iff_mem, List.contains_iff_mem, mem_selfLoops_iff,
      mem_selfLoops_iff, hsame.joins_iff]
  rw [cycles, cycles, hloops]
  exact mergeSort_lexLe_eq_of_perm ((hsame.components_perm hg hh).filter _)

/-- Each node has as many callers and callees in both graphs. -/
theorem fans_perm (hsame : g.SameParts h) (hg : g.WellFormed) (hh : h.WellFormed) :
    g.fans.Perm h.fans := by
  have hids := hsame.ids_perm hg hh
  have hcounts : ∀ id,
      Hotspot.mk id (g.fanIn id) (g.fanOut id) = ⟨id, h.fanIn id, h.fanOut id⟩ := by
    intro id
    simp only [fanIn, fanOut, hsame.joins_iff, List.toFinset_eq_of_perm _ _ hids]
  rw [hg.fans_eq, hh.fans_eq]
  simp only [hcounts]
  exact hids.map _

/-- The same parts have the same hotspots, in the same order. -/
theorem hotspots_eq (hsame : g.SameParts h) (hg : g.WellFormed) (hh : h.WellFormed) :
    g.hotspots = h.hotspots := by
  have hscored := (hsame.fans_perm hg hh).filter (0 < ·.score)
  have hscores : ((g.fans.filter (0 < ·.score)).map Hotspot.score).mergeSort (· ≥ ·) =
      ((h.fans.filter (0 < ·.score)).map Hotspot.score).mergeSort (· ≥ ·) := by
    refine mergeSort_eq_of_perm (fun a b c hab hbc => ?_) (fun a b => ?_)
      (fun a _ b _ hab hba => ?_) (hscored.map _)
    all_goals simp only [decide_eq_true_eq, Bool.or_eq_true] at *
    all_goals omega
  simp only [hotspots, hscores]
  split
  · rfl
  · refine mergeSort_eq_of_perm Hotspot.le_trans Hotspot.le_total (fun a ha b hb hab hba => ?_)
      (hscored.filter _)
    have ha : a ∈ g.fans := List.mem_of_mem_filter (List.mem_of_mem_filter ha)
    have hb : b ∈ g.fans := List.mem_of_mem_filter (List.mem_of_mem_filter hb)
    exact hg.eq_of_mem_fans ha hb (Hotspot.id_eq_of_le_of_le hab hba)

/-! ## paths -/

/-- The same parts have the same routes, in some order. -/
theorem routes_perm (hsame : g.SameParts h) (hg : g.WellFormed) (hh : h.WellFormed)
    (entry : String) (depth : Nat) : (g.routes entry depth).Perm (h.routes entry depth) := by
  simp only [Graph.routes, (hsame.ids_perm hg hh).mem_iff]
  split
  · exact ConnectorAudit.routes_perm hsame.successors_perm depth 0 [] entry
  · exact List.Perm.refl _

/-- A limit cuts something off in both graphs or in neither. -/
theorem truncated_paths_eq (hsame : g.SameParts h) (hg : g.WellFormed) (hh : h.WellFormed)
    (entry : String) (limits : PathLimits) :
    (g.paths entry limits).truncated = (h.paths entry limits).truncated := by
  have hroutes := hsame.routes_perm hg hh entry limits.depth
  have hwhole : (g.paths entry limits).truncated = false ↔
      (h.paths entry limits).truncated = false := by
    rw [hg.truncated_paths_eq_false_iff, hh.truncated_paths_eq_false_iff, hroutes.length_eq]
    simp only [hroutes.mem_iff]
  rw [Bool.eq_iff_iff, ← Bool.not_eq_false, ← Bool.not_eq_false, hwhole]

/-- The same paths in another order amount to the same. -/
theorem complexity_eq_of_perm (hsame : g.SameParts h) (hg : g.WellFormed) (hh : h.WellFormed)
    {found found' : PathSet} (hpaths : found.paths.toList.Perm found'.paths.toList)
    (htruncated : found.truncated = found'.truncated) :
    g.complexity found = h.complexity found' := by
  have hmet : found.met = found'.met := by
    ext a
    simp only [PathSet.mem_met_iff, hpaths.mem_iff]
  have hused : found.used = found'.used := by
    ext s
    simp only [PathSet.mem_used_iff, hpaths.mem_iff]
  have hdepth := (hpaths.map fun path => path.length - 1).foldl_eq (f := max) 0
  ext1
  · rw [nodes_complexity, nodes_complexity, hmet]
  · rw [edges_complexity, edges_complexity, hused]
  · exact hdepth
  · exact hpaths.length_eq
  · rw [hg.httpNodes_complexity, hh.httpNodes_complexity, hmet]
    exact ((hsame.nodes_perm hg hh).filter _).length_eq
  · exact htruncated

/-- The same parts are equally complex, if no path was left out. -/
theorem complexity_paths_eq (hsame : g.SameParts h) (hg : g.WellFormed) (hh : h.WellFormed)
    {entry : String} {limits : PathLimits} (hwhole : (g.paths entry limits).truncated = false) :
    g.complexity (g.paths entry limits) = h.complexity (h.paths entry limits) := by
  have hboth := hsame.truncated_paths_eq hg hh entry limits
  refine hsame.complexity_eq_of_perm hg hh ?_ hboth
  rw [hg.toList_paths_of_complete hwhole, hh.toList_paths_of_complete (hboth ▸ hwhole)]
  exact (hsame.routes_perm hg hh entry limits.depth).map _

end SameParts

/-- Graphs with the same nodes and the same edges have the same cycles, the same hotspots and the
same reachable nodes; a limit cuts something off from the paths of an entrypoint in both or in
neither, and if in neither, the paths amount to the same. -/
theorem analyses_eq_of_sameParts {g h : Graph} (hg : g.Built) (hh : h.Built)
    (hsame : g.SameParts h) :
    g.cycles = h.cycles ∧
      g.hotspots = h.hotspots ∧
      (∀ seeds seeds' : List String, seeds.Perm seeds' →
        (g.reachable seeds).Perm (h.reachable seeds')) ∧
      ∀ (entry : String) (limits : PathLimits),
        (g.paths entry limits).truncated = (h.paths entry limits).truncated ∧
          ((g.paths entry limits).truncated = false →
            g.complexity (g.paths entry limits) = h.complexity (h.paths entry limits)) := by
  have hg : g.WellFormed := hg.wellFormed
  have hh : h.WellFormed := hh.wellFormed
  exact ⟨hsame.cycles_eq hg hh, hsame.hotspots_eq hg hh,
    fun _ _ hseeds => hsame.reachable_perm hg hh hseeds, fun entry limits =>
      ⟨hsame.truncated_paths_eq hg hh entry limits, hsame.complexity_paths_eq hg hh⟩⟩

/-- The edges of a ring with a tail, the other way round: the paths come in another order, and
with room for one only, another one is found. -/
theorem analyses_ringWithTail_reverse :
    (ofChanges ringWithTail).SameParts (ofChanges ringWithTail.reverse) ∧
      (ofChanges ringWithTail).cycles = (ofChanges ringWithTail.reverse).cycles ∧
      (ofChanges ringWithTail).hotspots = (ofChanges ringWithTail.reverse).hotspots ∧
      ((ofChanges ringWithTail).reachable ["b", "c"]).Perm
        ((ofChanges ringWithTail.reverse).reachable ["c", "b"]) ∧
      (((ofChanges ringWithTail).paths "a" { paths := 1 }).paths ≠
          ((ofChanges ringWithTail.reverse).paths "a" { paths := 1 }).paths ∧
        ((ofChanges ringWithTail).paths "a" { paths := 1 }).truncated =
          ((ofChanges ringWithTail.reverse).paths "a" { paths := 1 }).truncated) ∧
      ((ofChanges ringWithTail).paths "a" {}).truncated = false ∧
      (ofChanges ringWithTail).complexity ((ofChanges ringWithTail).paths "a" {}) =
        (ofChanges ringWithTail.reverse).complexity
          ((ofChanges ringWithTail.reverse).paths "a" {}) := by
  have hnodes : (ofChanges ringWithTail).nodes.Perm (ofChanges ringWithTail.reverse).nodes := by
    decide
  have hedges : (ofChanges ringWithTail).edges.Perm (ofChanges ringWithTail.reverse).edges := by
    decide
  have hsame : (ofChanges ringWithTail).SameParts (ofChanges ringWithTail.reverse) :=
    ⟨fun _ => hnodes.mem_iff, fun _ => hedges.mem_iff⟩
  have hwhole : ((ofChanges ringWithTail).paths "a" {}).truncated = false := by
    decide +kernel
  obtain ⟨hcycles, hhotspots, hreachable, hpaths⟩ :=
    analyses_eq_of_sameParts ⟨_, rfl⟩ ⟨_, rfl⟩ hsame
  exact ⟨hsame, hcycles, hhotspots, hreachable _ _ (by decide), ⟨by decide +kernel, (hpaths _ _).1⟩,
    hwhole, (hpaths _ _).2 hwhole⟩

end Graph

end ConnectorAudit
