import ConnectorAudit.Tree.Traversal

/-!
# The nodes of a tree in pre-order

What a walk through a tree visits, told by recursion: a node, then the nodes below
each of its children in turn.  What a walk has yet to visit are the nodes of the
trees on its stack, from the top down (`Tree.Traversal.fold_eq`), so that a whole walk
is a run over all nodes in this order (`Tree.fold_eq`).
-/

namespace ConnectorAudit

namespace Tree

mutual
/-- The node and all nodes below it, each before its children. -/
def preorder : Tree → List Tree
  | ⟨kind, span, children⟩ => ⟨kind, span, children⟩ :: preorderAll children
/-- The nodes of a list of trees, one tree after the other. -/
def preorderAll : List Tree → List Tree
  | [] => []
  | t :: ts => t.preorder ++ preorderAll ts
end

theorem preorder_eq (t : Tree) : t.preorder = t :: preorderAll t.children := by
  obtain ⟨kind, span, children⟩ := t
  rw [preorder]

theorem preorderAll_append (ts us : List Tree) :
    preorderAll (ts ++ us) = preorderAll ts ++ preorderAll us := by
  induction ts with
  | nil => rfl
  | cons t ts ih => rw [List.cons_append, preorderAll, ih, preorderAll, List.append_assoc]

namespace Traversal

variable {σ : Type} {f : σ → Tree → σ}

theorem next?_eq_none_iff {w : Traversal} : w.next? = none ↔ w.stack.toList = [] := by
  rw [next?, Option.map_eq_none_iff, ← Array.getLast?_toList, List.getLast?_eq_none_iff]

/-- The rest of a walk visits the nodes of the trees on the stack, from the top down. -/
theorem fold_eq (s : σ) (w : Traversal) :
    w.fold f s = (preorderAll w.stack.toList.reverse).foldl f s := by
  fun_induction fold f s w with
  | case1 s w hnone => rw [next?_eq_none_iff.1 hnone, List.reverse_nil, preorderAll, List.foldl_nil]
  | case2 s w t w' hnext ih =>
    obtain ⟨below, hstack, hstack'⟩ := exists_of_next? hnext
    have htop : preorderAll w.stack.toList.reverse = t :: preorderAll w'.stack.toList.reverse := by
      rw [hstack, hstack', List.reverse_concat, preorderAll, preorder_eq, List.reverse_append,
        List.reverse_reverse, preorderAll_append, List.cons_append]
    rw [ih, htop, List.foldl_cons]

end Traversal

/-- A walk through a tree is a run over its nodes in pre-order. -/
theorem fold_eq {σ : Type} (f : σ → Tree → σ) (s : σ) (t : Tree) :
    t.fold f s = t.preorder.foldl f s := by
  rw [fold, Traversal.fold_eq]
  simp [preorderAll]

end Tree

end ConnectorAudit
