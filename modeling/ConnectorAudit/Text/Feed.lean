/-!
# Feeds

A feed is what is still to be read of a sequence: the items, with their number
at hand.  Readers that loop ask after every round whether the feed has become
shorter; keeping the number beside the items makes that question free, and
`count_next?` is the fact by which such loops end.
-/

namespace ConnectorAudit

/-- The items still to be read, and how many they are. -/
@[ext]
structure Feed (α : Type) where
  /-- The items, next one first. -/
  items : List α
  /-- Their number. -/
  count : Nat := items.length
  /-- The number is that of the items. -/
  count_eq : count = items.length := by rfl

namespace Feed

variable {α : Type}

def ofList (items : List α) : Feed α := { items }

/-- The next item and the feed behind it. -/
def next? : Feed α → Option (α × Feed α)
  | ⟨[], _, _⟩ => none
  | ⟨a :: items, n, h⟩ => some (a, ⟨items, n - 1, by simp [h]⟩)

/-- The next item, left in place. -/
def head? (f : Feed α) : Option α := f.items.head?

/-- A feed is known by its items. -/
theorem ext_items {f g : Feed α} (h : f.items = g.items) : f = g := by
  obtain ⟨fs, n, hn⟩ := f
  obtain ⟨gs, m, hm⟩ := g
  obtain rfl : fs = gs := h
  obtain rfl : n = m := hn.trans hm.symm
  rfl

/-- Every feed is that of its items. -/
@[simp]
theorem ofList_items (f : Feed α) : ofList f.items = f := ext_items rfl

@[simp]
theorem items_ofList (l : List α) : (ofList l).items = l := rfl

@[simp]
theorem count_ofList (l : List α) : (ofList l).count = l.length := rfl

@[simp]
theorem next?_nil : (ofList ([] : List α)).next? = none := rfl

@[simp]
theorem next?_cons (a : α) (l : List α) : (ofList (a :: l)).next? = some (a, ofList l) := by
  simp [next?, ofList]

/-- A feed yields its first item and keeps the others. -/
theorem next?_eq_some_iff {f g : Feed α} {a : α} :
    f.next? = some (a, g) ↔ f.items = a :: g.items := by
  constructor
  · intro h
    rw [← ofList_items f] at h ⊢
    cases hf : f.items with
    | nil => simp [hf] at h
    | cons b l =>
      simp only [hf, next?_cons, Option.some.injEq, Prod.mk.injEq] at h
      obtain ⟨rfl, rfl⟩ := h
      simp
  · intro h
    rw [← ofList_items f, h, next?_cons, ofList_items]

/-- Reading an item leaves one item fewer. -/
theorem count_next? {f g : Feed α} {a : α} (h : f.next? = some (a, g)) :
    f.count = g.count + 1 := by
  rw [f.count_eq, g.count_eq, next?_eq_some_iff.1 h, List.length_cons]

end Feed

end ConnectorAudit
