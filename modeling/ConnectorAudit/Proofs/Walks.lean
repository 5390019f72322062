import Mathlib.Logic.Relation
import ConnectorAudit.Graph.Reach

/-!
# Walks

Walks along a function that gives the next items, and along the edges of a
graph.  `reach` is the executable side of a walk, and this module ties the two:

* `mem_reach_iff`: what a search meets is what walks over fresh items lead to;
* `nodup_reach`: it meets nothing twice;
* `Graph.adjacency_eq`: the rows that the searches read, built by one pass over the
  edges, hold the successors of each node;
* `Graph.leads_successors_iff`: walks along successors follow the edges.
-/

namespace ConnectorAudit

open Relation

variable {α : Type}

/-- A walk along `next` leads from `a` to `b`; the empty walk leads from an item to itself. -/
def Leads (next : α → List α) : α → α → Prop := ReflTransGen fun a b => b ∈ next a

/-- A walk along `next` that goes to items of `fresh` only leads from `a` to `b`. -/
def LeadsIn (next : α → List α) (fresh : List α) : α → α → Prop :=
  ReflTransGen fun a b => b ∈ next a ∧ b ∈ fresh

/-- A way through fewer nodes is one through more. -/
theorem LeadsIn.mono {next : α → List α} {fresh more : List α} {a b : α}
    (h : LeadsIn next fresh a b) (hsub : ∀ c ∈ fresh, c ∈ more) : LeadsIn next more a b :=
  ReflTransGen.mono (fun _ c hstep => ⟨hstep.1, hsub c hstep.2⟩) a b h

/-- A walk over fresh items ends where it began or in a fresh item. -/
theorem LeadsIn.mem {next : α → List α} {fresh : List α} {a b : α}
    (h : LeadsIn next fresh a b) (ha : a ∈ fresh) : b ∈ fresh := by
  cases h with
  | refl => exact ha
  | tail _ hstep => exact hstep.2

/-! ## the search -/

section Reach

variable [BEq α] [LawfulBEq α]

/-- The search meets only what a walk over fresh items leads to from its queue. -/
theorem exists_leadsIn_of_mem_reach {next : α → List α} {fresh queue : List α} {b : α}
    (h : b ∈ reach next fresh queue) : ∃ a ∈ queue, a ∈ fresh ∧ LeadsIn next fresh a b := by
  fun_induction reach next fresh queue with
  | case1 => cases h
  | case2 fresh a queue ha _ ih =>
    have hsub : ∀ c ∈ fresh.erase a, c ∈ fresh := fun c hc => List.mem_of_mem_erase hc
    rcases List.mem_cons.1 h with rfl | h
    · exact ⟨b, List.mem_cons_self, ha, ReflTransGen.refl⟩
    · obtain ⟨c, hc, hcf, hwalk⟩ := ih h
      have hwalk : LeadsIn next fresh c b := hwalk.mono hsub
      rcases List.mem_append.1 hc with hc | hc
      · exact ⟨c, List.mem_cons_of_mem a hc, hsub c hcf, hwalk⟩
      · have hstep : c ∈ next a := (List.mem_filter.1 hc).1
        exact ⟨a, List.mem_cons_self, ha, ReflTransGen.head ⟨hstep, hsub c hcf⟩ hwalk⟩
  | case3 fresh a queue _ ih =>
    obtain ⟨c, hc, hcf, hwalk⟩ := ih h
    exact ⟨c, List.mem_cons_of_mem a hc, hcf, hwalk⟩

/-- The search meets the fresh items of its queue, and all fresh items behind those it
meets. -/
theorem reach_closed (next : α → List α) (fresh queue : List α) :
    (∀ a ∈ queue, a ∈ fresh → a ∈ reach next fresh queue) ∧
      ∀ a ∈ reach next fresh queue, ∀ b ∈ next a, b ∈ fresh → b ∈ reach next fresh queue := by
  fun_induction reach next fresh queue with
  | case1 => simp
  | case2 fresh a queue ha _ ih =>
    obtain ⟨hqueue, hclosed⟩ := ih
    -- An item other than `a` is as fresh after the step as before it.
    have hfresh : ∀ c ∈ fresh, c ≠ a → c ∈ fresh.erase a := fun c hc hne =>
      (List.mem_erase_of_ne hne).2 hc
    constructor
    · intro c hc hcf
      rcases List.mem_cons.1 hc with rfl | hc
      · exact List.mem_cons_self
      · by_cases hca : c = a
        · exact List.mem_cons.2 (.inl hca)
        · exact List.mem_cons_of_mem a
            (hqueue c (List.mem_append_left _ hc) (hfresh c hcf hca))
    · intro c hc b hb hbf
      by_cases hba : b = a
      · exact List.mem_cons.2 (.inl hba)
      · refine List.mem_cons_of_mem a ?_
        rcases List.mem_cons.1 hc with rfl | hc
        · -- An item that follows is put into the queue because it is still fresh.
          have hleft : b ∈ fresh.erase c := hfresh b hbf hba
          have hput : b ∈ (next c).filter (fresh.erase c).contains :=
            List.mem_filter.2 ⟨hb, List.contains_iff_mem.2 hleft⟩
          exact hqueue b (List.mem_append_right _ hput) hleft
        · exact hclosed c hc b hb (hfresh b hbf hba)
  | case3 fresh a queue ha ih =>
    obtain ⟨hqueue, hclosed⟩ := ih
    refine ⟨fun c hc hcf => ?_, hclosed⟩
    rcases List.mem_cons.1 hc with rfl | hc
    · exact absurd hcf ha
    · exact hqueue c hc hcf

/-- The search meets exactly what walks over fresh items lead to from its queue. -/
theorem mem_reach_iff {next : α → List α} {fresh queue : List α} {b : α} :
    b ∈ reach next fresh queue ↔ ∃ a ∈ queue, a ∈ fresh ∧ LeadsIn next fresh a b := by
  refine ⟨exists_leadsIn_of_mem_reach, ?_⟩
  rintro ⟨a, ha, haf, hwalk⟩
  obtain ⟨hqueue, hclosed⟩ := reach_closed next fresh queue
  induction hwalk with
  | refl => exact hqueue a ha haf
  | tail _ hstep ih => exact hclosed _ ih _ hstep.1 hstep.2

/-- What is reached was fresh. -/
theorem mem_of_mem_reach {next : α → List α} {fresh queue : List α} {b : α}
    (h : b ∈ reach next fresh queue) : b ∈ fresh := by
  obtain ⟨a, _, haf, hwalk⟩ := mem_reach_iff.1 h
  exact hwalk.mem haf

/-- The search meets nothing twice. -/
theorem nodup_reach {next : α → List α} {fresh queue : List α} (h : fresh.Nodup) :
    (reach next fresh queue).Nodup := by
  fun_induction reach next fresh queue with
  | case1 => exact List.nodup_nil
  | case2 fresh a queue _ _ ih =>
    refine List.nodup_cons.2 ⟨fun ha => ?_, ih (h.erase a)⟩
    exact h.not_mem_erase (mem_of_mem_reach ha)
  | case3 fresh a queue _ ih => exact ih h

end Reach

/-! ## erasing duplicates -/

section EraseDups

variable [BEq α] [LawfulBEq α] {l : List α} {a : α}

/-- Erasing duplicates leaves none. -/
theorem nodup_eraseDups : (l : List α) → l.eraseDups.Nodup
  | [] => List.nodup_nil
  | a :: l => by
    rw [List.eraseDups_cons]
    exact List.nodup_cons.2 ⟨by simp, nodup_eraseDups _⟩
termination_by l => l.length
decreasing_by exact Nat.lt_succ_of_le (List.length_filter_le _ l)

theorem eraseDups_concat_of_mem (ha : a ∈ l) : (l ++ [a]).eraseDups = l.eraseDups := by
  simp [List.eraseDups_append, List.removeAll, ha]

theorem eraseDups_concat_of_not_mem (ha : a ∉ l) :
    (l ++ [a]).eraseDups = l.eraseDups ++ [a] := by
  have hone : [a].eraseDups = [a] := by rw [List.eraseDups_cons]; rfl
  simp [List.eraseDups_append, List.removeAll, ha, hone]

end EraseDups

/-! ## walks in a graph -/

namespace Graph

/-- An edge leads from `a` to `b`. -/
def Joins (g : Graph) (a b : String) : Prop := ∃ e ∈ g.edges, e.source = a ∧ e.target = b

/-- A walk along edges leads from `a` to `b`; the empty walk leads from a node to itself. -/
def Reaches (g : Graph) : String → String → Prop := ReflTransGen g.Joins

/-- A node is followed by what it is joined to. -/
theorem mem_successors_iff {g : Graph} {a b : String} : b ∈ g.successors a ↔ g.Joins a b := by
  simp [successors, Joins, and_assoc]

theorem nodup_successors (g : Graph) (id : String) : (g.successors id).Nodup :=
  nodup_eraseDups _

/-- Walks along successors are walks along edges. -/
theorem leads_successors_iff {g : Graph} {a b : String} :
    Leads g.successors a b ↔ g.Reaches a b := by
  simp only [Leads, Reaches, mem_successors_iff]

/-! ## rows -/

/-- One more edge adds its target to the successors of its source, unless it is one of them. -/
theorem successors_concat (g : Graph) (edges : List Edge) (e : Edge) (id : String) :
    { g with edges := edges ++ [e] }.successors id =
      if id == e.source && !({ g with edges }.successors id).contains e.target
      then { g with edges }.successors id ++ [e.target] else { g with edges }.successors id := by
  by_cases hsource : e.source = id
  · have hsplit : ((edges ++ [e]).filter (·.source == id)).map Edge.target =
        (edges.filter (·.source == id)).map Edge.target ++ [e.target] := by simp [hsource]
    simp only [successors, hsplit, hsource, beq_self_eq_true, Bool.true_and, Bool.not_eq_true',
      ← Bool.not_eq_true, List.contains_iff_mem, List.mem_eraseDups]
    by_cases hmem : e.target ∈ (edges.filter (·.source == id)).map Edge.target
    · rw [if_neg fun hnot => hnot hmem, eraseDups_concat_of_mem hmem]
    · rw [if_pos hmem, eraseDups_concat_of_not_mem hmem]
  · simp [successors, hsource, Ne.symm hsource]

/-- The pass over the edges finds the successors of each node. -/
theorem adjacency_eq (g : Graph) : g.adjacency = g.ids.map fun id => (id, g.successors id) := by
  have hpass : ∀ edges rest : List Edge,
      rest.foldl Adjacency.note (g.ids.map fun id => (id, { g with edges }.successors id)) =
        g.ids.map fun id => (id, { g with edges := edges ++ rest }.successors id) := by
    intro edges rest
    induction rest generalizing edges with
    | nil => simp
    | cons e rest ih =>
      rw [List.foldl_cons, List.append_cons, ← ih, Adjacency.note, List.map_map]
      congr 2
      funext id
      simp only [Function.comp_apply, successors_concat]
      split <;> rfl
  exact hpass [] g.edges

/-- The row of a node lists its successors. -/
theorem lookup_adjacency (g : Graph) (id : String) :
    g.adjacency.lookup id = if id ∈ g.ids then some (g.successors id) else none := by
  rw [adjacency_eq]
  induction g.ids with
  | nil => rfl
  | cons a ids ih =>
    by_cases ha : id = a
    · simp [ha]
    · simp [List.lookup_cons, ha, ih, beq_eq_false_iff_ne.2 ha]

end Graph

end ConnectorAudit
