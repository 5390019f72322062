import ConnectorAudit.Graph.Components

/-!
# Sorting

What sorting does to a list of texts and to a list of such lists, and what is
left of a sorted list without its repetitions.

* `mergeSort_eq_of_perm`: where no two items are of the same rank, the order of a list does not
  show once it is sorted;
* `pairwise_mergeSort_le`, `pairwise_mergeSort_lexLe`: texts, and lists of texts, come out in order;
* `pairwise_eraseReps`: a sorted list without repetitions ascends strictly.
-/

namespace ConnectorAudit

variable {α : Type}

/-- Sorting forgets the order, where no two items are of the same rank. -/
theorem mergeSort_eq_of_perm {le : α → α → Bool} {l l' : List α}
    (htrans : ∀ a b c, le a b → le b c → le a c) (htotal : ∀ a b, le a b || le b a)
    (hanti : ∀ a ∈ l, ∀ b ∈ l, le a b → le b a → a = b) (h : l.Perm l') :
    l.mergeSort le = l'.mergeSort le := by
  have hperm : (l.mergeSort le).Perm (l'.mergeSort le) :=
    ((List.mergeSort_perm l le).trans h).trans (List.mergeSort_perm l' le).symm
  refine hperm.eq_of_pairwise (fun a b ha hb => ?_) (List.pairwise_mergeSort htrans htotal l)
    (List.pairwise_mergeSort htrans htotal l')
  exact hanti a (List.mem_mergeSort.1 ha) b (h.mem_iff.2 (List.mem_mergeSort.1 hb))

/-! ## texts -/

/-- Sorting by `≤` puts strings in order. -/
theorem pairwise_mergeSort_le (l : List String) :
    (l.mergeSort (· ≤ ·)).Pairwise (· ≤ ·) := by
  have htrans : ∀ a b c : String, decide (a ≤ b) → decide (b ≤ c) → decide (a ≤ c) := by
    intro a b c hab hbc
    rw [decide_eq_true_eq] at hab hbc ⊢
    exact String.le_trans hab hbc
  have htotal : ∀ a b : String, decide (a ≤ b) || decide (b ≤ a) := by
    intro a b
    simpa using String.le_total a b
  exact (List.pairwise_mergeSort htrans htotal l).imp of_decide_eq_true

/-! ## lists of texts -/

theorem lexLe_iff {a b : List String} : lexLe a b ↔ ¬List.Lex (· < ·) b a := by
  fun_induction lexLe a b with
  | case1 b => simp
  | case2 a as => simp
  | case3 a as b bs ih =>
    rw [Bool.or_eq_true, Bool.and_eq_true, decide_eq_true_eq, beq_iff_eq, ih]
    exact List.cons_le_cons_iff.symm

theorem lexLe_trans (a b c : List String) (hab : lexLe a b) (hbc : lexLe b c) : lexLe a c := by
  rw [lexLe_iff] at *
  exact List.le_trans hab hbc

theorem lexLe_total (a b : List String) : lexLe a b || lexLe b a := by
  rw [Bool.or_eq_true, lexLe_iff, lexLe_iff]
  exact List.le_total a b

theorem lexLe_antisymm {a b : List String} (hab : lexLe a b) (hba : lexLe b a) : a = b := by
  rw [lexLe_iff] at *
  exact List.le_antisymm hab hba

/-- Of two different lists of texts in order, the first one is the smaller one. -/
theorem lex_of_lexLe_of_ne {a b : List String} (h : lexLe a b) (hne : a ≠ b) :
    List.Lex (· < ·) a b :=
  Classical.byContradiction fun hnot => hne (lexLe_antisymm h (lexLe_iff.2 hnot))

/-- Sorting lists of texts forgets their order. -/
theorem mergeSort_lexLe_eq_of_perm {l l' : List (List String)} (h : l.Perm l') :
    l.mergeSort lexLe = l'.mergeSort lexLe :=
  mergeSort_eq_of_perm lexLe_trans lexLe_total (fun _ _ _ _ => lexLe_antisymm) h

/-- Different lists of texts come out in strictly ascending order. -/
theorem pairwise_mergeSort_lexLe {l : List (List String)} (h : l.Nodup) :
    (l.mergeSort lexLe).Pairwise (List.Lex (· < ·)) := by
  have hne : (l.mergeSort lexLe).Nodup := (List.mergeSort_perm l lexLe).nodup_iff.2 h
  exact (List.pairwise_mergeSort lexLe_trans lexLe_total l).imp₂
    (fun _ _ hle hne => lex_of_lexLe_of_ne hle hne) hne

/-! ## repetitions -/

section Repetitions

variable [BEq α]

/-- What was kept before stays in front. -/
theorem eraseReps_loop (a : α) (l kept : List α) :
    List.eraseRepsBy.loop (· == ·) a l kept =
      kept.reverse ++ List.eraseRepsBy.loop (· == ·) a l [] := by
  induction l generalizing a kept with
  | nil => simp [List.eraseRepsBy.loop]
  | cons b l ih =>
    rw [List.eraseRepsBy.loop, List.eraseRepsBy.loop]
    split
    · exact ih a kept
    · rw [ih b (a :: kept), ih b [a]]
      simp

variable [LawfulBEq α]

theorem eraseReps_cons_cons (a b : α) (l : List α) :
    (a :: b :: l).eraseReps =
      if a == b then (b :: l).eraseReps else a :: (b :: l).eraseReps := by
  rw [List.eraseReps, List.eraseRepsBy, List.eraseRepsBy.loop]
  cases hab : a == b with
  | true =>
    obtain rfl := eq_of_beq hab
    rfl
  | false => exact eraseReps_loop b l [a]

/-- Leaving out repetitions keeps every item. -/
theorem mem_eraseReps_iff {a : α} {l : List α} : a ∈ l.eraseReps ↔ a ∈ l := by
  induction l with
  | nil => rfl
  | cons b l ih =>
    cases l with
    | nil => rfl
    | cons c l =>
      rw [eraseReps_cons_cons]
      split
      · next hbc =>
        obtain rfl := eq_of_beq hbc
        rw [ih]
        simp
      · rw [List.mem_cons, ih]
        exact List.mem_cons.symm

/-- Where equal items are neighbours, as they are in a sorted list, none is left twice. -/
theorem pairwise_eraseReps {le : α → α → Prop} (hanti : ∀ a b, le a b → le b a → a = b)
    {l : List α} (h : l.Pairwise le) : l.eraseReps.Pairwise fun a b => le a b ∧ a ≠ b := by
  induction l with
  | nil => exact List.Pairwise.nil
  | cons a l ih =>
    cases l with
    | nil => exact List.pairwise_singleton _ _
    | cons b l =>
      obtain ⟨hfirst, hrest⟩ := List.pairwise_cons.1 h
      rw [eraseReps_cons_cons]
      split
      · exact ih hrest
      · next hab =>
        refine List.pairwise_cons.2 ⟨fun c hc => ?_, ih hrest⟩
        have hc : c ∈ b :: l := mem_eraseReps_iff.1 hc
        refine ⟨hfirst c hc, ?_⟩
        rintro rfl
        -- The item would be above its neighbour as well as below it.
        have hle : le b a := by
          rcases List.mem_cons.1 hc with rfl | hc
          · exact hfirst a List.mem_cons_self
          · exact (List.pairwise_cons.1 hrest).1 a hc
        exact hab (beq_iff_eq.2 (hanti a b (hfirst b List.mem_cons_self) hle))

end Repetitions

/-- Sorting and leaving out repetitions keeps every string. -/
theorem mem_sortedDistinct_iff {a : String} {l : List String} : a ∈ sortedDistinct l ↔ a ∈ l := by
  rw [sortedDistinct, mem_eraseReps_iff, List.mem_mergeSort]

/-- Sorting and leaving out repetitions keeps no string twice. -/
theorem nodup_sortedDistinct (l : List String) : (sortedDistinct l).Nodup :=
  (pairwise_eraseReps (fun _ _ => String.le_antisymm) (pairwise_mergeSort_le l)).imp And.right

end ConnectorAudit
