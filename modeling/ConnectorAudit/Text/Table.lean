/-!
# Tables

Values under text keys, in the order of the keys.  The keys ascend strictly, so
a key occurs once and two tables with the same values under the same keys are
equal.  Texts are ordered by their code points, which is the order of their
UTF-8 bytes.
-/

namespace ConnectorAudit

/-- Values under keys in ascending order. -/
structure Table (α : Type) where
  entries : List (String × α)
  /-- The keys ascend. -/
  ascending : entries.Pairwise (·.1 < ·.1)
  deriving DecidableEq

namespace Table

variable {α : Type}

def empty : Table α := ⟨[], List.Pairwise.nil⟩

instance : Inhabited (Table α) := ⟨empty⟩

/-- Puts a value into an ascending list, over the one already under its key. -/
def insertInto (key : String) (value : α) : List (String × α) → List (String × α)
  | [] => [(key, value)]
  | (k, v) :: rest =>
    if key < k then (key, value) :: (k, v) :: rest
    else if key = k then (key, value) :: rest
    else (k, v) :: insertInto key value rest

theorem mem_insertInto {key : String} {value : α} {e : String × α} {l : List (String × α)}
    (h : e ∈ insertInto key value l) : e = (key, value) ∨ e ∈ l := by
  induction l with
  | nil => simpa [insertInto] using h
  | cons hd tl ih =>
    unfold insertInto at h
    grind

theorem ascending_insertInto (key : String) (value : α) {l : List (String × α)}
    (h : l.Pairwise (·.1 < ·.1)) : (insertInto key value l).Pairwise (·.1 < ·.1) := by
  induction l with
  | nil => simp [insertInto]
  | cons hd tl ih =>
    obtain ⟨k, v⟩ := hd
    obtain ⟨hk, ht⟩ := List.pairwise_cons.1 h
    unfold insertInto
    split
    · next hlt =>
      refine List.pairwise_cons.2 ⟨?_, h⟩
      intro e he
      rcases List.mem_cons.1 he with rfl | he
      · exact hlt
      · exact String.lt_trans hlt (hk e he)
    · next hnlt =>
      split
      · next heq =>
        subst heq
        exact List.pairwise_cons.2 ⟨hk, ht⟩
      · next hne =>
        refine List.pairwise_cons.2 ⟨?_, ih ht⟩
        intro e he
        rcases mem_insertInto he with rfl | he
        · exact Std.lt_of_le_of_ne (String.not_lt.1 hnlt) (Ne.symm hne)
        · exact hk e he

/-- The table with a value under a key, over the one already there. -/
def insert (t : Table α) (key : String) (value : α) : Table α :=
  ⟨insertInto key value t.entries, ascending_insertInto key value t.ascending⟩

def get? (t : Table α) (key : String) : Option α := t.entries.lookup key

theorem lookup_insertInto (key k : String) (value : α) (l : List (String × α)) :
    (insertInto key value l).lookup k = if k = key then some value else l.lookup k := by
  induction l with
  | nil => grind [insertInto]
  | cons hd tl ih =>
    obtain ⟨k', v'⟩ := hd
    unfold insertInto
    grind

@[simp]
theorem get?_empty (k : String) : (empty : Table α).get? k = none := rfl

/-- A table gives back what was put under a key, and all else as before. -/
theorem get?_insert (t : Table α) (key k : String) (value : α) :
    (t.insert key value).get? k = if k = key then some value else t.get? k :=
  lookup_insertInto key k value t.entries

/-- The table of a list of keys and values; of values under one key, the last one counts. -/
def ofList (l : List (String × α)) : Table α :=
  l.foldl (fun t (key, value) => t.insert key value) empty

/-- A table made of keys alone has under each of them what belongs to it. -/
theorem get?_ofList_map (f : String → α) (keys : List String) (k : String) :
    (ofList (keys.map fun key => (key, f key))).get? k = if k ∈ keys then some (f k) else none := by
  have hrun : ∀ (keys : List String) (t : Table α),
      ((keys.map fun key => (key, f key)).foldl (fun t e => t.insert e.1 e.2) t).get? k =
        if k ∈ keys then some (f k) else t.get? k := by
    intro keys
    induction keys with
    | nil => simp
    | cons key keys ih =>
      intro t
      rw [List.map_cons, List.foldl_cons, ih, get?_insert]
      grind
  exact hrun keys empty

/-- One more under a key. -/
def count (t : Table Nat) (key : String) : Table Nat :=
  t.insert key ((t.get? key).getD 0 + 1)

theorem getD_get?_count (t : Table Nat) (key k : String) :
    ((t.count key).get? k).getD 0 = (t.get? k).getD 0 + if k = key then 1 else 0 := by
  rw [count, get?_insert]
  split
  · next h => simp [h]
  · simp

end Table

/-- Texts in ascending order, each once. -/
def sortedDistinct (l : List String) : List String := (l.mergeSort (· ≤ ·)).eraseReps

end ConnectorAudit
