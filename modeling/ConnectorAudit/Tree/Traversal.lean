import ConnectorAudit.Tree

/-!
# Walks through a tree

The nodes of a tree one after the other, each before its children.  A walk keeps
the trees that it has yet to visit on a stack and so needs no recursion; it ends
because these have one node fewer after each step.
-/

namespace ConnectorAudit

namespace Tree

mutual
def size : Tree → Nat
  | ⟨_, _, children⟩ => sizeAll children + 1
def sizeAll : List Tree → Nat
  | [] => 0
  | t :: ts => t.size + sizeAll ts
end

theorem size_eq (t : Tree) : t.size = sizeAll t.children + 1 := by
  obtain ⟨kind, span, children⟩ := t
  rw [size]

theorem sizeAll_append (ts us : List Tree) : sizeAll (ts ++ us) = sizeAll ts + sizeAll us := by
  induction ts with
  | nil => rw [List.nil_append, sizeAll, Nat.zero_add]
  | cons t ts ih => rw [List.cons_append, sizeAll, ih, sizeAll, Nat.add_assoc]

theorem sizeAll_reverse (ts : List Tree) : sizeAll ts.reverse = sizeAll ts := by
  induction ts with
  | nil => rfl
  | cons t ts ih => rw [List.reverse_cons, sizeAll_append, ih, Nat.add_comm, sizeAll, sizeAll,
      sizeAll, Nat.add_zero]

/-- A walk through a tree, as far as it has come. -/
structure Traversal where
  /-- The trees yet to be visited; the one on top is last. -/
  stack : Array Tree

namespace Traversal

/-- The tree on top is next, and its children are put in its place, the first of them on top. -/
def next? (w : Traversal) : Option (Tree × Traversal) :=
  w.stack.back?.map fun t => (t, ⟨w.stack.pop ++ t.children.reverse⟩)

/-- A walk that goes on has a tree on top. -/
theorem exists_of_next? {w w' : Traversal} {t : Tree} (h : w.next? = some (t, w')) :
    ∃ below, w.stack.toList = below ++ [t] ∧ w'.stack.toList = below ++ t.children.reverse := by
  obtain ⟨u, hu, hnext⟩ := Option.map_eq_some_iff.1 h
  obtain ⟨rfl, rfl⟩ := Prod.mk.inj hnext
  rw [← Array.getLast?_toList, List.getLast?_eq_some_iff] at hu
  obtain ⟨below, hstack⟩ := hu
  refine ⟨below, hstack, ?_⟩
  simp [hstack]

/-- The number of nodes yet to be visited. -/
def left (w : Traversal) : Nat := sizeAll w.stack.toList

theorem left_lt_of_next? {w w' : Traversal} {t : Tree} (h : w.next? = some (t, w')) :
    w'.left < w.left := by
  obtain ⟨below, hstack, hstack'⟩ := exists_of_next? h
  rw [left, left, hstack, hstack', sizeAll_append, sizeAll_append, sizeAll_reverse, sizeAll,
    sizeAll, size_eq]
  omega

/-- Goes on to the end, taking in one node after the other. -/
def fold {σ : Type} (f : σ → Tree → σ) (s : σ) (w : Traversal) : σ :=
  match _h : w.next? with
  | none => s
  | some (t, w') => fold f (f s t) w'
termination_by w.left
decreasing_by exact left_lt_of_next? _h

end Traversal

/-- Takes in the nodes of a tree, each before its children. -/
def fold {σ : Type} (f : σ → Tree → σ) (s : σ) (t : Tree) : σ := Traversal.fold f s ⟨#[t]⟩

end Tree

end ConnectorAudit
