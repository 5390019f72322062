import ConnectorAudit.Proofs.DocumentChoice
import ConnectorAudit.Proofs.ShapedParses

/-!
# How deep trees go

The limit on nesting counts levels of rules, and a level can add several nodes: an
argument may be a hash, of pairs, whose values are groups.  A receiver adds a node and no
level.  So depth is counted along a path from the root, by the edges that are not those of
a call to its receiver.

* `Tree.reachesIn_iff`: how deep a node goes, by its children;
* `Tree.Shaped.reachesIn`: three levels allow four edges, and the last ones a few more;
* `Parsed.nestingAlong_tree_le`: hence the bound for the trees of a parse.
-/

namespace ConnectorAudit

/-- What a place in the grammar allows beyond its levels, in thirds of an edge. -/
def Role.slack : Role → Nat
  | .operand => 5
  | .expression => 4
  | .statement => 0
  | .entry => 3
  | .argument => 6

namespace Tree

/-! ## depth along a path -/

/-- The step from the node to its child `i` leads from a call to its receiver. -/
def isReceiverStep (t : Tree) (i : Nat) : Bool := i == 0 && t.receiver?.isSome

/-- The number of edges on the way to an address, those from a call to its receiver left out. -/
def nestingAlong : List Nat → Tree → Nat
  | [], _ => 0
  | i :: path, t =>
    (if t.isReceiverStep i then 0 else 1) + (t.children[i]?.elim 0 (nestingAlong path))

/-- No path into the tree counts more than a third of `m` edges. -/
def ReachesIn (m : Nat) (t : Tree) : Prop :=
  ∀ path node, nodeAt? path t = some node → 3 * nestingAlong path t ≤ m

/-- A wider bound is reached as well. -/
theorem ReachesIn.mono {m m' : Nat} {t : Tree} (h : t.ReachesIn m) (hm : m ≤ m') :
    t.ReachesIn m' :=
  fun path node hnode => (h path node hnode).trans hm

/-- A path ends at the node or goes on through one of its children. -/
theorem reachesIn_iff {m : Nat} {t : Tree} :
    t.ReachesIn m ↔ ∀ i c, t.children[i]? = some c →
      if t.isReceiverStep i then c.ReachesIn m else 3 ≤ m ∧ c.ReachesIn (m - 3) := by
  constructor
  · intro h i c hc
    have hpath : ∀ path node, nodeAt? path c = some node →
        3 * ((if t.isReceiverStep i then 0 else 1) + nestingAlong path c) ≤ m := by
      intro path node hnode
      have hlong := h (i :: path) node (by simpa [nodeAt?, hc] using hnode)
      simpa [nestingAlong, hc] using hlong
    split
    · next hreceiver =>
      intro path node hnode
      have hlong := hpath path node hnode
      rw [if_pos hreceiver] at hlong
      omega
    · next hreceiver =>
      simp only [if_neg hreceiver] at hpath
      refine ⟨?_, fun path node hnode => ?_⟩
      · have hlong := hpath [] c rfl
        omega
      · have hlong := hpath path node hnode
        omega
  · intro h path node hnode
    cases path with
    | nil => exact Nat.zero_le m
    | cons i path =>
      obtain ⟨c, hc, hnode⟩ := Option.bind_eq_some_iff.1 hnode
      have hchild := h i c hc
      simp only [nestingAlong, hc, Option.elim_some]
      split at hchild
      · next hreceiver =>
        have hlong := hchild path node hnode
        rw [if_pos hreceiver]
        omega
      · next hreceiver =>
        have hlong := hchild.2 path node hnode
        rw [if_neg hreceiver]
        omega

/-- A node whose children all go less deep. -/
theorem reachesIn_of_children {m : Nat} {kind : Kind} {span : Span} {children : List Tree}
    (h : ∀ c ∈ children, c.ReachesIn m) : ReachesIn (m + 3) ⟨kind, span, children⟩ := by
  refine reachesIn_iff.2 fun i c hc => ?_
  have hchild := h c (List.mem_of_getElem? hc)
  split
  · exact hchild.mono (Nat.le_add_right m 3)
  · exact ⟨Nat.le_add_left 3 m, hchild⟩

/-- A leaf reaches no deeper than itself. -/
theorem reachesIn_leaf (m : Nat) (kind : Kind) (span : Span) : (leaf kind span).ReachesIn m :=
  reachesIn_iff.2 fun i c hc => by simp [leaf] at hc

/-- A call goes as deep as its receiver, or less deep than below its arguments. -/
theorem reachesIn_ofCall {m : Nat} {receiver : Option Tree} {args : List Tree}
    (hreceiver : ∀ r ∈ receiver, r.ReachesIn (m + 3)) (hargs : ∀ a ∈ args, a.ReachesIn m)
    (name : String) (span : Span) : (ofCall name receiver args none span).ReachesIn (m + 3) := by
  cases receiver with
  | none => exact reachesIn_of_children (by simpa using hargs)
  | some r =>
    refine reachesIn_iff.2 fun i c hc => ?_
    cases i with
    | zero =>
      obtain rfl : r = c := by simpa [ofCall] using hc
      exact hreceiver r rfl
    | succ i =>
      have hc : args[i]? = some c := by simpa [ofCall] using hc
      exact ⟨Nat.le_add_left 3 m, hargs c (List.mem_of_getElem? hc)⟩

/-- A block goes below the node that it is attached to. -/
theorem reachesIn_withBlock {m : Nat} {tree : Tree} {body : List Tree}
    (htree : tree.ReachesIn (m + 6)) (haccepts : Level.acceptsBlock tree = true)
    (hbody : ∀ c ∈ body, c.ReachesIn m) (params : List String) (blockSpan span : Span) :
    (Level.withBlock tree params body blockSpan span).ReachesIn (m + 6) := by
  have hblock : ReachesIn (m + 3) ⟨.block params, blockSpan, body⟩ := reachesIn_of_children hbody
  unfold Level.withBlock
  split
  · exact (reachesIn_of_children hbody).mono (by omega)
  · unfold Level.acceptsBlock at haccepts
    simp only
    split
    · next name receiver args block hkind =>
      refine reachesIn_iff.2 fun i c hc => ?_
      rw [List.getElem?_append] at hc
      split at hc
      · -- The children that were there are reached by the same steps.
        have hstep : isReceiverStep ⟨.call name receiver args true, span,
            tree.children ++ [⟨.block params, blockSpan, body⟩]⟩ i = tree.isReceiverStep i := by
          have hne : tree.children ≠ [] := List.ne_nil_of_mem (List.mem_of_getElem? hc)
          cases receiver with
          | false => simp [isReceiverStep, receiver?, hkind]
          | true => simp [isReceiverStep, receiver?, hkind, List.head?_append, hne]
        rw [hstep]
        exact reachesIn_iff.1 htree i c hc
      · obtain rfl := List.mem_singleton.1 (List.mem_of_getElem? hc)
        split
        · exact hblock.mono (by omega)
        · exact ⟨by omega, hblock⟩
    · exact reachesIn_of_children (by simpa [ofCall] using hblock)
    · next hcall hname =>
      split at haccepts
      · next hkind => exact absurd hkind (hname _)
      · next hkind => exact absurd hkind (hcall _ _ _ _)
      · cases haccepts

/-! ## levels -/

/-- In a tree that the rules can make, three levels allow four edges. -/
theorem Shaped.reachesIn {tokens : List Token} {role : Role} {n : Nat} {tree : Tree}
    (h : tree.Shaped tokens role n) : tree.ReachesIn (4 * n + role.slack) := by
  induction h with
  | name name span => exact reachesIn_leaf _ _ span
  | constant literal span => exact reachesIn_leaf _ _ span
  | body _ _ _ ih => exact (reachesIn_of_children ih).mono (by simp only [Role.slack]; omega)
  | array _ _ ih => exact (reachesIn_of_children ih).mono (by simp only [Role.slack]; omega)
  | braced _ _ _ _ ih => exact (reachesIn_of_children ih).mono (by simp only [Role.slack]; omega)
  | bare _ _ _ _ ih => exact (reachesIn_of_children ih).mono (by simp only [Role.slack]; omega)
  | unary _ _ ih =>
    exact (reachesIn_of_children (List.forall_mem_singleton.2 ih)).mono
      (by simp only [Role.slack]; omega)
  | group _ _ ih => exact (reachesIn_of_children ih).mono (by simp only [Role.slack]; omega)
  | call name span _ _ ihreceiver ihargs => exact reachesIn_ofCall ihreceiver ihargs name span
  | @blocked n tree body params blockSpan span _ haccepts _ ihtree ihbody =>
    have hbody : ∀ c ∈ body, c.ReachesIn (4 * n + 3) := fun c hc =>
      (ihbody c hc).mono (by simp only [Role.slack]; omega)
    exact reachesIn_withBlock ihtree haccepts hbody params blockSpan span
  | single _ ih => exact ih.mono (by simp only [Role.slack]; omega)
  | chain _ _ ih => exact (reachesIn_of_children ih).mono (by simp only [Role.slack]; omega)
  | statement _ ih => exact ih.mono (by simp only [Role.slack]; omega)
  | positional _ ih => exact ih.mono (by simp only [Role.slack]; omega)
  | pair _ _ ihkey ihvalue =>
    have hparts := List.forall_mem_cons.2 ⟨ihkey, List.forall_mem_singleton.2 ihvalue⟩
    exact reachesIn_of_children hparts
  | @shorthand n name span =>
    have hparts := List.forall_mem_cons.2 ⟨reachesIn_leaf 0 (.literal (.symbol name)) span,
      List.forall_mem_singleton.2 (reachesIn_leaf 0 (.identifier name) span)⟩
    exact (reachesIn_of_children hparts).mono (by simp only [Role.slack]; omega)
  | argument _ ih => exact ih.mono (by simp only [Role.slack]; omega)
  | run _ _ _ _ ih => exact reachesIn_of_children ih

end Tree

namespace Parsed

/-- **Depth.** Whatever the tokens are, if they parse then no path from the root of the tree has
more than twice as many edges as levels are allowed, those from a call to its receiver left
out. -/
theorem nestingAlong_tree_le {tokens : List Token} {parsed : Parsed}
    (h : ofTokens tokens = .ok parsed) {path : List Nat} {node : Tree}
    (hnode : Tree.nodeAt? path parsed.tree = some node) :
    Tree.nestingAlong path parsed.tree ≤ 2 * nestingLimit := by
  obtain ⟨statements, htree, hshaped⟩ := shaped_ofTokens h
  have hroot : parsed.tree.ReachesIn (4 * (nestingLimit + 1) + 3) := by
    rw [htree]
    cases statements with
    | nil => exact Tree.reachesIn_leaf _ _ _
    | cons first rest => exact Tree.reachesIn_of_children fun c hc => (hshaped c hc).reachesIn
  have hpath := hroot path node hnode
  rw [nestingLimit] at hpath ⊢
  omega

/-- Two receivers, one below the other, and an argument that is a hash. -/
def chainedCalls : String := "a.b.c(d: [e])"

theorem nestingAlong_chainedCalls :
    ∃ parsed, ofTokens (Token.scanLossy chainedCalls).1 = .ok parsed ∧
      (Tree.nodeAt? [0, 0, 0] parsed.tree).map Tree.kind = some (.identifier "a") ∧
      Tree.nestingAlong [0, 0, 0] parsed.tree = 1 ∧
      (Tree.nodeAt? [0, 1, 0, 1, 0] parsed.tree).map Tree.kind = some (.identifier "e") ∧
      Tree.nestingAlong [0, 1, 0, 1, 0] parsed.tree = 5 ∧
      Tree.nestingAlong [0, 1, 0, 1, 0] parsed.tree ≤ 2 * nestingLimit := by
  have hpaths : (ofTokens (Token.scanLossy chainedCalls).1).toOption.map (fun parsed =>
      [[0, 0, 0], [0, 1, 0, 1, 0]].map fun path =>
        ((Tree.nodeAt? path parsed.tree).map Tree.kind, Tree.nestingAlong path parsed.tree)) =
      some [(some (.identifier "a"), 1), (some (.identifier "e"), 5)] := by
    decide +kernel
  obtain ⟨parsed, hparse, hpaths⟩ := exists_of_map_toOption hpaths
  obtain ⟨hreceiver, hargument⟩ := List.cons.inj hpaths
  obtain ⟨hkind, hcount⟩ := Prod.mk.inj hreceiver
  obtain ⟨hkind', hcount'⟩ := Prod.mk.inj (List.cons.inj hargument).1
  obtain ⟨node, hnode, -⟩ := Option.map_eq_some_iff.1 hkind'
  exact ⟨parsed, hparse, hkind, hcount, hkind', hcount', nestingAlong_tree_le hparse hnode⟩

end Parsed

end ConnectorAudit
