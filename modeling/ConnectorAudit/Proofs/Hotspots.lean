import Mathlib.Data.Finset.Card
import Mathlib.Data.List.Nodup
import ConnectorAudit.Graph.Hotspots
import ConnectorAudit.Proofs.Growth
import ConnectorAudit.Proofs.Sorting

/-!
# The highest scores

Which nodes are hotspots, said of the graph alone.  The callers of a node are the
nodes from which an edge leads to it, however many edges there are; a node is a
hotspot if its score is positive and fewer than ten different scores are above it.

* `getLast?_take_le_iff`: the last of the first scores, as a bound, by counting;
* `Graph.WellFormed.fans_eq`: what is counted of each node, by one pass over the rows;
* `Graph.WellFormed.mem_hotspots_iff`: hence the hotspots, and `Graph.hotspots_ofChanges` with
  their order.
-/

namespace ConnectorAudit

/-! ## the order of hotspots -/

namespace Hotspot

/-- Higher scores come first, and then earlier ids. -/
theorem le_iff {h k : Hotspot} :
    h.le k ↔ k.score < h.score ∨ h.score = k.score ∧ h.id ≤ k.id := by
  simp [le]

theorem le_trans (a b c : Hotspot) (hab : a.le b) (hbc : b.le c) : a.le c := by
  rw [le_iff] at *
  rcases hab with hab | ⟨hab, hid⟩
  · exact .inl (by omega)
  · rcases hbc with hbc | ⟨hbc, hid'⟩
    · exact .inl (by omega)
    · exact .inr ⟨hab.trans hbc, String.le_trans hid hid'⟩

theorem le_total (a b : Hotspot) : a.le b || b.le a := by
  rw [Bool.or_eq_true, le_iff, le_iff]
  rcases Nat.lt_trichotomy a.score b.score with hlt | heq | hlt
  · exact .inr (.inl hlt)
  · exact (String.le_total a.id b.id).imp (fun hid => .inr ⟨heq, hid⟩) fun hid =>
      .inr ⟨heq.symm, hid⟩
  · exact .inl (.inl hlt)

/-- Two hotspots of the same rank are the same node. -/
theorem id_eq_of_le_of_le {a b : Hotspot} (hab : a.le b) (hba : b.le a) : a.id = b.id := by
  rw [le_iff] at hab hba
  rcases hab with hlt | ⟨heq, hid⟩
  · omega
  · rcases hba with hlt | ⟨-, hid'⟩
    · omega
    · exact String.le_antisymm hid hid'

end Hotspot

/-! ## the first items of a descending list -/

/-- In a descending list, the last of the first `n` items is not above those that have fewer than
`n` items above them. -/
theorem getLast?_take_le_iff {l : List Nat} (hl : l.Pairwise (· > ·)) {n last a : Nat}
    (hlast : (l.take n).getLast? = some last) (ha : a ∈ l) :
    last ≤ a ↔ l.countP (a < ·) < n := by
  induction l generalizing n with
  | nil => cases ha
  | cons b l ih =>
    obtain ⟨hb, hl⟩ := List.pairwise_cons.1 hl
    cases n with
    | zero => cases hlast
    | succ n =>
      have hmem : last ∈ b :: l.take n := List.mem_of_getLast? hlast
      rcases List.mem_cons.1 ha with rfl | ha
      · -- Nothing is above the first item.
        have hnone : l.countP (a < ·) = 0 := by
          refine List.countP_eq_zero.2 fun d hd => ?_
          have := hb d hd
          simpa using this.le
        have hle : last ≤ a := by
          rcases List.mem_cons.1 hmem with rfl | hmem
          · exact Nat.le_refl _
          · exact (hb last (List.mem_of_mem_take hmem)).le
        simp [hnone, hle]
      · have hab : a < b := hb a ha
        rw [List.countP_cons_of_pos (by simpa using hab), Nat.add_lt_add_iff_right]
        cases n with
        | zero =>
          obtain rfl : last = b := by simpa using hmem
          simpa using hab
        | succ n =>
          obtain ⟨d, l, rfl⟩ := List.exists_cons_of_ne_nil (List.ne_nil_of_mem ha)
          refine ih hl ?_ ha
          simpa [List.getLast?_cons_cons] using hlast

namespace Graph

variable {g : Graph}

/-! ## counting -/

instance (g : Graph) : DecidableRel g.Joins := fun a b =>
  inferInstanceAs (Decidable (∃ e ∈ g.edges, e.source = a ∧ e.target = b))

/-- How many nodes an edge leads from to `id`. -/
def fanIn (g : Graph) (id : String) : Nat := (g.ids.toFinset.filter (g.Joins · id)).card

/-- How many nodes an edge leads to from `id`. -/
def fanOut (g : Graph) (id : String) : Nat := (g.ids.toFinset.filter (g.Joins id)).card

/-- The larger of the two numbers. -/
def scoreOf (g : Graph) (id : String) : Nat := max (g.fanIn id) (g.fanOut id)

/-- The different scores above `score`. -/
def scoresAbove (g : Graph) (score : Nat) : Finset Nat :=
  (g.ids.toFinset.image g.scoreOf).filter (score < ·)

/-- A list without repetitions is as long as what it lists is large. -/
theorem length_eq_card_filter {l ids : List String} (hl : l.Nodup) {p : String → Prop}
    [DecidablePred p] (h : ∀ a, a ∈ l ↔ a ∈ ids ∧ p a) :
    l.length = (ids.toFinset.filter p).card := by
  rw [← List.toFinset_card_of_nodup hl]
  congr 1
  ext a
  simp [h]

/-- The pass over the rows counts how often they list a node. -/
theorem getD_fanIn (rows : Adjacency) (id : String) :
    (rows.fanIn.get? id).getD 0 = (rows.flatMap Prod.snd).count id := by
  have hrow : ∀ (targets : List String) (counts : Table Nat),
      ((targets.foldl Table.count counts).get? id).getD 0 =
        (counts.get? id).getD 0 + targets.count id := by
    intro targets
    induction targets with
    | nil => simp
    | cons t targets ih =>
      intro counts
      rw [List.foldl_cons, ih, Table.getD_get?_count, List.count_cons]
      simp only [beq_iff_eq, eq_comm (a := t)]
      omega
  have hrows : ∀ (rows : Adjacency) (counts : Table Nat),
      ((rows.foldl (fun counts row => row.2.foldl Table.count counts) counts).get? id).getD 0 =
        (counts.get? id).getD 0 + (rows.flatMap Prod.snd).count id := by
    intro rows
    induction rows with
    | nil => simp
    | cons row rows ih =>
      intro counts
      rw [List.foldl_cons, ih, hrow, List.flatMap_cons, List.count_append, Nat.add_assoc]
  simpa [Adjacency.fanIn] using hrows rows .empty

/-- A node is listed once in the row of each node from which an edge leads to it. -/
theorem WellFormed.count_flatMap_successors (h : g.WellFormed) (id : String) :
    (g.ids.flatMap g.successors).count id = g.fanIn id := by
  have hcount : ∀ ids : List String, (ids.flatMap g.successors).count id =
      (ids.filter (g.Joins · id)).length := by
    intro ids
    induction ids with
    | nil => rfl
    | cons a ids ih =>
      rw [List.flatMap_cons, List.count_append, ih, (nodup_successors g a).count]
      simp only [mem_successors_iff, List.filter_cons, decide_eq_true_eq]
      split <;> simp [Nat.add_comm]
  rw [hcount]
  exact length_eq_card_filter (h.nodup.filter _) fun a => by simp

/-- What a node is followed by is counted by the edges that leave it. -/
theorem WellFormed.length_successors (h : g.WellFormed) (id : String) :
    (g.successors id).length = g.fanOut id :=
  length_eq_card_filter (nodup_successors g id) fun _ =>
    mem_successors_iff.trans (and_iff_right_of_imp fun ha => (h.mem_of_joins ha).2).symm

/-- The hotspot is a node with its own numbers. -/
structure Counts (g : Graph) (h : Hotspot) : Prop where
  mem_ids : h.id ∈ g.ids
  fanIn_eq : h.fanIn = g.fanIn h.id
  fanOut_eq : h.fanOut = g.fanOut h.id

/-- The score of counted ends is that of the node. -/
theorem Counts.score_eq {h : Hotspot} (hh : g.Counts h) : h.score = g.scoreOf h.id := by
  rw [Hotspot.score, hh.fanIn_eq, hh.fanOut_eq, scoreOf]

/-- The ends of edges are counted for every node, in the order of the nodes. -/
theorem WellFormed.fans_eq (hg : g.WellFormed) :
    g.fans = g.ids.map fun id => ⟨id, g.fanIn id, g.fanOut id⟩ := by
  have hrows : g.adjacency.flatMap Prod.snd = g.ids.flatMap g.successors := by
    rw [adjacency_eq, List.flatMap_map]
  simp only [fans, getD_fanIn, hrows, hg.count_flatMap_successors]
  rw [adjacency_eq, List.map_map]
  simp only [Function.comp_def, hg.length_successors]

/-- The counts are those of the nodes. -/
theorem WellFormed.mem_fans_iff (hg : g.WellFormed) {h : Hotspot} : h ∈ g.fans ↔ g.Counts h := by
  simp only [hg.fans_eq, List.mem_map]
  constructor
  · rintro ⟨id, hid, rfl⟩
    exact ⟨hid, rfl, rfl⟩
  · rintro ⟨hid, hin, hout⟩
    exact ⟨h.id, hid, by rw [← hin, ← hout]⟩

/-- A node is counted once. -/
theorem WellFormed.eq_of_mem_fans (hg : g.WellFormed) {a b : Hotspot} (ha : a ∈ g.fans)
    (hb : b ∈ g.fans) (hid : a.id = b.id) : a = b := by
  rw [hg.fans_eq] at ha hb
  obtain ⟨id, -, rfl⟩ := List.mem_map.1 ha
  obtain ⟨id', -, rfl⟩ := List.mem_map.1 hb
  rw [show id = id' from hid]

/-! ## tiers -/

/-- The nodes with a positive score. -/
def scored (g : Graph) : List Hotspot := g.fans.filter (0 < ·.score)

/-- The different positive scores, highest first. -/
def tiers (g : Graph) : List Nat := ((g.scored.map Hotspot.score).mergeSort (· ≥ ·)).eraseReps

/-- The hotspots are what is at least in the last of the first tiers. -/
theorem hotspots_eq_tiers (g : Graph) :
    g.hotspots = match (g.tiers.take hotspotTiers).getLast? with
      | none => []
      | some cutoff => (g.scored.filter (cutoff ≤ ·.score)).mergeSort Hotspot.le := rfl

/-- A tier is a score that some node has. -/
theorem mem_tiers_iff {score : Nat} : score ∈ g.tiers ↔ ∃ h ∈ g.scored, h.score = score := by
  rw [tiers, mem_eraseReps_iff, List.mem_mergeSort, List.mem_map]

/-- The tiers go down. -/
theorem pairwise_tiers (g : Graph) : g.tiers.Pairwise (· > ·) := by
  have hsorted : ((g.scored.map Hotspot.score).mergeSort (· ≥ ·)).Pairwise (· ≥ ·) := by
    refine (List.pairwise_mergeSort (fun a b c hab hbc => ?_) (fun a b => ?_) _).imp
      of_decide_eq_true
    all_goals simp only [decide_eq_true_eq, Bool.or_eq_true] at *
    all_goals omega
  refine (pairwise_eraseReps (fun a b hab hba => Nat.le_antisymm hba hab) hsorted).imp ?_
  rintro a b ⟨hge, hne⟩
  omega

/-- The tiers above a score are the different scores above it, since those are positive. -/
theorem WellFormed.countP_tiers (hg : g.WellFormed) (score : Nat) :
    g.tiers.countP (score < ·) = (g.scoresAbove score).card := by
  have hnodup : g.tiers.Nodup := (pairwise_tiers g).imp Nat.ne_of_gt
  rw [List.countP_eq_length_filter, ← List.toFinset_card_of_nodup (hnodup.filter _), scoresAbove]
  congr 1
  ext tier
  simp only [List.mem_toFinset, List.mem_filter, decide_eq_true_eq, Finset.mem_filter,
    Finset.mem_image, mem_tiers_iff, scored, hg.mem_fans_iff]
  refine and_congr_left fun habove => ⟨?_, ?_⟩
  · rintro ⟨h, ⟨hh, -⟩, rfl⟩
    exact ⟨h.id, hh.mem_ids, hh.score_eq.symm⟩
  · rintro ⟨id, hid, rfl⟩
    let h : Hotspot := ⟨id, g.fanIn id, g.fanOut id⟩
    have hh : g.Counts h := ⟨hid, rfl, rfl⟩
    exact ⟨h, ⟨hh, hh.score_eq ▸ Nat.zero_lt_of_lt habove⟩, hh.score_eq⟩

/-! ## hotspots -/

/-- A hotspot is a node with a score that few scores are above. -/
theorem WellFormed.mem_hotspots_iff (hg : g.WellFormed) {h : Hotspot} :
    h ∈ g.hotspots ↔
      g.Counts h ∧ 0 < h.score ∧ (g.scoresAbove h.score).card < hotspotTiers := by
  have hscored : h ∈ g.scored ↔ g.Counts h ∧ 0 < h.score := by
    rw [scored, List.mem_filter, hg.mem_fans_iff, decide_eq_true_eq]
  rw [← and_assoc, ← hscored, hotspots_eq_tiers, ← hg.countP_tiers]
  split
  · next hnone =>
    -- There is a first tier, unless there is none at all.
    have hempty : g.tiers = [] := by
      simpa [hotspotTiers] using List.getLast?_eq_none_iff.1 hnone
    have hno : h ∉ g.scored := fun hmem => by
      have htier := mem_tiers_iff.2 ⟨h, hmem, rfl⟩
      rw [hempty] at htier
      cases htier
    simp [hno]
  · next cutoff hcutoff =>
    rw [List.mem_mergeSort, List.mem_filter, decide_eq_true_eq]
    exact and_congr_right fun hmem =>
      getLast?_take_le_iff (pairwise_tiers g) hcutoff (mem_tiers_iff.2 ⟨h, hmem, rfl⟩)

/-- No node is a hotspot twice. -/
theorem WellFormed.nodup_map_id_hotspots (hg : g.WellFormed) :
    (g.hotspots.map Hotspot.id).Nodup := by
  have hfans : (g.fans.map Hotspot.id).Nodup := by
    simpa [hg.fans_eq, Function.comp_def] using hg.nodup
  rw [hotspots_eq_tiers]
  split
  · exact List.nodup_nil
  · next cutoff _ =>
    have hsub : ((g.scored.filter (cutoff ≤ ·.score)).map Hotspot.id).Sublist
        (g.fans.map Hotspot.id) :=
      (List.filter_sublist.trans List.filter_sublist).map _
    exact ((List.mergeSort_perm _ _).map _).nodup_iff.2 (hfans.sublist hsub)

/-- The hotspots come in order. -/
theorem pairwise_le_hotspots (g : Graph) : g.hotspots.Pairwise fun h k => h.le k = true := by
  rw [hotspots_eq_tiers]
  split
  · exact .nil
  · exact List.pairwise_mergeSort Hotspot.le_trans Hotspot.le_total _

/-- **Hotspots.** In every graph the hotspots are, each once, the nodes with a positive score above
which there are fewer than ten different scores, with the numbers of nodes that call them and that
they call; higher scores come first, and equal ones in the order of the ids. -/
theorem hotspots_ofChanges (changes : List Change) :
    let g := ofChanges changes
    (g.hotspots.map Hotspot.id).Nodup ∧
      (∀ h, h ∈ g.hotspots ↔ g.Counts h ∧ 0 < h.score ∧ (g.scoresAbove h.score).card < 10) ∧
      g.hotspots.Pairwise fun h k => k.score < h.score ∨ h.score = k.score ∧ h.id < k.id := by
  intro g
  have hg : g.WellFormed := wellFormed_ofChanges changes
  have hnodup := hg.nodup_map_id_hotspots
  refine ⟨hnodup, fun h => hg.mem_hotspots_iff, ?_⟩
  refine (pairwise_le_hotspots g).imp₂ (fun h k hle hne => ?_) (List.pairwise_map.1 hnodup)
  refine (Hotspot.le_iff.1 hle).imp_right fun ⟨hscore, hid⟩ => ⟨hscore, ?_⟩
  exact Std.lt_of_le_of_ne hid hne

end Graph

end ConnectorAudit
