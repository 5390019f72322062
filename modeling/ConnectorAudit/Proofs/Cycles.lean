import Mathlib.Data.List.Flatten
import Mathlib.Data.List.Nodup
import ConnectorAudit.Proofs.Components

/-!
# Cycles are the classes that a walk can go round

A node comes back to itself along at least one edge exactly if an edge leads from
it to a node of its own component.  That node is another one, and then the
component has two nodes, or it is the node itself, and then there is a loop: the
test by which components are picked says no more and no less
(`WellFormed.goesRound_iff`), and says it of all nodes of a component alike.

`Graph.cycles_goRound` is the result for every graph.
-/

namespace ConnectorAudit

open Relation

/-- A list without repetition that holds an item is longer than one if it holds another one. -/
theorem one_lt_length_iff {α : Type} {a : α} {l : List α} (h : l.Nodup) (ha : a ∈ l) :
    1 < l.length ↔ ∃ b ∈ l, b ≠ a := by
  have hpos : 0 < l.length := List.length_pos_of_mem ha
  have hsingle : l.length = 1 ↔ l = [a] := by
    refine ⟨fun hone => ?_, fun heq => by rw [heq]; rfl⟩
    obtain ⟨b, rfl⟩ := List.length_eq_one_iff.1 hone
    rw [List.mem_singleton.1 ha]
  have hother : l ≠ [a] ↔ ∃ b ∈ l, b ≠ a :=
    (h.ne_singleton_iff a).trans (or_iff_right (List.ne_nil_of_mem ha))
  rw [← hother, ne_eq, ← hsingle]
  omega

namespace Graph

variable {g : Graph} {a b : String} {c : List String}

/-- A self loop is an edge from a node to itself. -/
theorem mem_selfLoops_iff : a ∈ g.selfLoops ↔ g.Joins a a := by
  simp only [selfLoops, List.mem_map, List.mem_filter, beq_iff_eq, Joins]
  grind

/-- A component is picked if it has another node or a loop; of a single node it is enough to look
at the first one. -/
theorem picked_iff : (1 < c.length || c.head?.any g.selfLoops.contains) = true ↔
    1 < c.length ∨ ∃ b ∈ c, g.Joins b b := by
  rw [Bool.or_eq_true, decide_eq_true_eq]
  cases c with
  | nil => simp
  | cons a c =>
    cases c with
    | nil => simp [mem_selfLoops_iff]
    | cons b c => simp

/-- A walk of at least one edge leads from a node back to itself. -/
def GoesRound (g : Graph) (a : String) : Prop := TransGen g.Joins a a

/-- An edge from which there is a way back goes round. -/
theorem goesRound_of_joins (hab : g.Joins a b) (hba : g.Reaches b a) : g.GoesRound a :=
  TransGen.head'_iff.2 ⟨b, hab, hba⟩

/-- What goes round does so along one of its edges. -/
theorem GoesRound.exists_joins (h : g.GoesRound a) : ∃ b, g.Joins a b ∧ g.Reaches b a :=
  TransGen.head'_iff.1 h

/-- Two nodes that reach each other and are not the same go round. -/
theorem goesRound_of_ne (hab : g.Reaches a b) (hba : g.Reaches b a) (hne : b ≠ a) :
    g.GoesRound a := by
  rcases ReflTransGen.cases_head hab with heq | ⟨d, had, hdb⟩
  · exact absurd heq.symm hne
  · exact goesRound_of_joins had (hdb.trans hba)

/-- If a node goes round, so do all nodes of its class. -/
theorem GoesRound.of_mutual (h : g.GoesRound a) (hab : g.Reaches a b) (hba : g.Reaches b a) :
    g.GoesRound b := by
  by_cases hne : a = b
  · exact hne ▸ h
  · exact goesRound_of_ne hba hab hne

namespace WellFormed

variable (h : g.WellFormed)

include h

/-- A node goes round exactly if its component has another node or a loop. -/
theorem goesRound_iff (hc : c ∈ g.components) (ha : a ∈ c) :
    g.GoesRound a ↔ 1 < c.length ∨ ∃ b ∈ c, g.Joins b b := by
  have hclass : ∀ b, b ∈ c ↔ g.Reaches a b ∧ g.Reaches b a := fun b =>
    h.mem_component_iff_mutual hc ha
  have hnodup : c.Nodup := (h.mem_components_iff.1 hc).2.1
  constructor
  · intro hround
    obtain ⟨b, hab, hba⟩ := hround.exists_joins
    by_cases hne : b = a
    · exact .inr ⟨a, ha, hne ▸ hab⟩
    · have hb : b ∈ c := (hclass b).2 ⟨ReflTransGen.single hab, hba⟩
      exact .inl ((one_lt_length_iff hnodup ha).2 ⟨b, hb, hne⟩)
  · rintro (hlong | ⟨b, hb, hloop⟩)
    · obtain ⟨b, hb, hne⟩ := (one_lt_length_iff hnodup ha).1 hlong
      obtain ⟨hab, hba⟩ := (hclass b).1 hb
      exact goesRound_of_ne hab hba hne
    · obtain ⟨hab, hba⟩ := (hclass b).1 hb
      exact (goesRound_of_joins hloop .refl).of_mutual hba hab

/-- The cycles are the components whose nodes go round. -/
theorem mem_cycles_iff :
    c ∈ g.cycles ↔ c ∈ g.components ∧ ∃ a ∈ c, g.GoesRound a := by
  rw [cycles, List.mem_mergeSort, List.mem_filter, picked_iff]
  refine and_congr_right fun hc => ?_
  obtain ⟨r, hr, -⟩ := h.mem_component_iff hc
  constructor
  · exact fun hpicked => ⟨r, hr, (h.goesRound_iff hc hr).2 hpicked⟩
  · rintro ⟨a, ha, hround⟩
    exact (h.goesRound_iff hc ha).1 hround

/-- A node is in a cycle exactly if it goes round. -/
theorem exists_mem_cycles_iff : (∃ c ∈ g.cycles, a ∈ c) ↔ g.GoesRound a := by
  constructor
  · rintro ⟨c, hc, ha⟩
    obtain ⟨hc, b, hb, hround⟩ := h.mem_cycles_iff.1 hc
    exact (h.goesRound_iff hc ha).2 ((h.goesRound_iff hc hb).1 hround)
  · intro hround
    obtain ⟨b, hab, -⟩ := hround.exists_joins
    have hmem : a ∈ g.components.flatten :=
      g.perm_flatten_components.mem_iff.2 (h.mem_of_joins hab).1
    obtain ⟨c, hc, ha⟩ := List.mem_flatten.1 hmem
    exact ⟨c, h.mem_cycles_iff.2 ⟨hc, a, ha, hround⟩, ha⟩

/-- A node lies on one cycle at most. -/
theorem nodup_flatten_cycles : g.cycles.flatten.Nodup := by
  have hall : g.components.flatten.Nodup := g.perm_flatten_components.nodup_iff.2 h.nodup
  have hpicked : ∀ p : List String → Bool, (g.components.filter p).flatten.Nodup := fun p =>
    hall.sublist List.filter_sublist.flatten
  exact ((List.mergeSort_perm _ lexLe).flatten.nodup_iff).2 (hpicked _)

end WellFormed

/-- **Cycles.** In every graph that changes make, a node is in a list of the cycles exactly if a
walk of at least one edge leads from it back to itself.  Each list is a class of nodes that reach
each other, in strictly ascending order; no node occurs twice in all of them, and the lists are in
strictly ascending order as well. -/
theorem cycles_goRound (changes : List Change) :
    (∀ a, (∃ c ∈ (ofChanges changes).cycles, a ∈ c) ↔ TransGen (ofChanges changes).Joins a a) ∧
      (∀ c ∈ (ofChanges changes).cycles, c.Pairwise (· < ·) ∧
        ∃ a ∈ (ofChanges changes).ids, ∀ b,
          b ∈ c ↔ (ofChanges changes).Reaches a b ∧ (ofChanges changes).Reaches b a) ∧
      (ofChanges changes).cycles.flatten.Nodup ∧
      (ofChanges changes).cycles.Pairwise (List.Lex (· < ·)) := by
  have h : (ofChanges changes).WellFormed := wellFormed_ofChanges changes
  refine ⟨fun a => h.exists_mem_cycles_iff, fun c hc => ?_, h.nodup_flatten_cycles, ?_⟩
  · obtain ⟨hsorted, hnodup, hclass⟩ := h.mem_components_iff.1 (h.mem_cycles_iff.1 hc).1
    refine ⟨?_, hclass⟩
    exact hsorted.imp₂ (fun _ _ hle hne => Std.lt_of_le_of_ne hle hne) hnodup
  · exact pairwise_mergeSort_lexLe (h.nodup_components.filter _)

/-- A node with two loops that differ in their details, a ring of two nodes of which one has a loop,
and a node on the way from the ring to the first one. -/
def loopsAndRing : List Change :=
  [.edge ⟨"d", "d", .empty⟩, .edge ⟨"d", "d", .ofList [("label", "calls")]⟩,
    .edge ⟨"b", "a", .empty⟩, .edge ⟨"a", "b", .empty⟩, .edge ⟨"a", "a", .empty⟩,
    .edge ⟨"b", "c", .empty⟩, .edge ⟨"c", "d", .empty⟩]

/-- The ring and the node with the loops are cycles, and the node between them is in none. -/
theorem cycles_loopsAndRing :
    (ofChanges loopsAndRing).cycles = [["a", "b"], ["d"]] ∧
      (["a", "b"] ∈ (ofChanges loopsAndRing).cycles ∧
        ∃ a ∈ (ofChanges loopsAndRing).ids, ∀ b, b ∈ ["a", "b"] ↔
          (ofChanges loopsAndRing).Reaches a b ∧ (ofChanges loopsAndRing).Reaches b a) ∧
      TransGen (ofChanges loopsAndRing).Joins "d" "d" ∧
      ¬TransGen (ofChanges loopsAndRing).Joins "c" "c" := by
  have hgroups : (ofChanges loopsAndRing).groups = [["d"], ["c"], ["a", "b"]] := by decide +kernel
  have hloops : (ofChanges loopsAndRing).selfLoops = ["d", "d", "a"] := by decide +kernel
  have hcycles : (ofChanges loopsAndRing).cycles = [["a", "b"], ["d"]] := by
    rw [cycles, components, hgroups, hloops]
    cbv
  have hring : ["a", "b"] ∈ (ofChanges loopsAndRing).cycles := by
    rw [hcycles]
    exact List.mem_cons_self
  obtain ⟨hround, hclass, -⟩ := cycles_goRound loopsAndRing
  refine ⟨hcycles, ⟨hring, (hclass _ hring).2⟩, (hround "d").1 ?_, fun hc => ?_⟩
  · rw [hcycles]
    exact ⟨["d"], by simp, List.mem_singleton_self _⟩
  · obtain ⟨c, hmem, hc⟩ := (hround "c").2 hc
    rw [hcycles] at hmem
    revert c
    decide

end Graph

end ConnectorAudit
