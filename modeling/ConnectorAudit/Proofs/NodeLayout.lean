import ConnectorAudit.Proofs.ShapedParses
import ConnectorAudit.Proofs.Traversals

/-!
# The layout of nodes

The children of a node lie flat, and its kind says what they are.  `Tree.LaidOut` says
that the two fit: a call has as many children as it counts, a pair has two, a name has
none, and a hash that does not begin with a brace holds pairs.

* `Tree.Shaped.laidOut`: every node below a shaped tree is laid out;
* `Tree.LaidOut.children_eq`: the parts of a call are read off without a gap;
* `Parsed.laidOut_tree`: so it is for every node of a parsed source.
-/

namespace ConnectorAudit

namespace Tree

/-! ## nodes below a tree -/

/-- A node is met in trees if it is met in one of them. -/
theorem mem_preorderAll {t : Tree} {ts : List Tree} :
    t ∈ preorderAll ts ↔ ∃ c ∈ ts, t ∈ c.preorder := by
  induction ts with
  | nil => simp [preorderAll]
  | cons c ts ih => simp [preorderAll, ih]

/-- A node is met in a tree if it is the tree or met in one of its children. -/
theorem mem_preorder {t u : Tree} : u ∈ t.preorder ↔ u = t ∨ ∃ c ∈ t.children, u ∈ c.preorder := by
  obtain ⟨kind, span, children⟩ := t
  rw [preorder, List.mem_cons, mem_preorderAll]

/-- What holds of all nodes holds of the tree and of all nodes of its children. -/
theorem forall_mem_preorder {P : Tree → Prop} {t : Tree} :
    (∀ u ∈ t.preorder, P u) ↔ P t ∧ ∀ c ∈ t.children, ∀ u ∈ c.preorder, P u := by
  constructor
  · intro h
    exact ⟨h t (mem_preorder.2 (.inl rfl)),
      fun c hc u hu => h u (mem_preorder.2 (.inr ⟨c, hc, hu⟩))⟩
  · rintro ⟨ht, hchildren⟩ u hu
    rcases mem_preorder.1 hu with rfl | ⟨c, hc, hu⟩
    · exact ht
    · exact hchildren c hc u hu

/-! ## layout -/

/-- The children of the node are what its kind says.  The hashes that begin at a brace among the
tokens can hold anything. -/
structure LaidOut (tokens : List Token) (t : Tree) : Prop where
  call : ∀ {name receiver args block}, t.kind = .call name receiver args block →
    t.children.length = receiver.toNat + args + block.toNat
  block : ∀ {name receiver args}, t.kind = .call name receiver args true →
    ∃ body params, t.children.getLast? = some body ∧ body.kind = .block params
  pair : t.kind = .pair → t.children.length = 2
  identifier : ∀ {name}, t.kind = .identifier name → t.children = []
  hash : t.kind = .hash →
    (∀ brace ∈ tokens, brace.kind = .braceOpen → brace.offset ≠ t.span.offset) →
    t.children ≠ [] ∧ ∀ c ∈ t.children, c.kind = .pair

/-- The kinds that say something about the children of a node. -/
def Kind.isCounted : Kind → Bool
  | .call .. | .pair | .identifier _ | .hash => true
  | _ => false

section LaidOut

variable {tokens : List Token} {t : Tree}

/-- Nodes of kinds that are not counted are laid out. -/
theorem laidOut_of_kind (h : t.kind.isCounted = false) : t.LaidOut tokens where
  call hkind := by rw [hkind] at h; cases h
  block hkind := by rw [hkind] at h; cases h
  pair hkind := by rw [hkind] at h; cases h
  identifier hkind := by rw [hkind] at h; cases h
  hash hkind := by rw [hkind] at h; cases h

theorem laidOut_identifier (name : String) (span : Span) :
    (leaf (.identifier name) span).LaidOut tokens where
  call := nofun
  block := nofun
  pair := nofun
  identifier _ := rfl
  hash := nofun

theorem laidOut_ofPair (key value : Tree) : (ofPair key value).LaidOut tokens where
  call := nofun
  block := nofun
  pair _ := rfl
  identifier := nofun
  hash := nofun

/-- A hash is laid out if it has a brace, or nothing but pairs. -/
theorem laidOut_hash {span : Span} {children : List Tree}
    (h : (∃ brace ∈ tokens, brace.kind = .braceOpen ∧ brace.offset = span.offset) ∨
      children ≠ [] ∧ ∀ c ∈ children, c.kind = .pair) :
    LaidOut tokens ⟨.hash, span, children⟩ where
  call := nofun
  block := nofun
  pair := nofun
  identifier := nofun
  hash _ hnone := by
    rcases h with ⟨brace, hbrace, hkind, hoffset⟩ | h
    · exact absurd hoffset (hnone brace hbrace hkind)
    · exact h

/-- A call without a block. -/
theorem laidOut_call {name : String} {receiver : Bool} {args : Nat} {span : Span}
    {children : List Tree} (h : children.length = receiver.toNat + args) :
    LaidOut tokens ⟨.call name receiver args false, span, children⟩ where
  call hkind := by
    obtain ⟨-, rfl, rfl, rfl⟩ := Kind.call.inj hkind
    exact h
  block := nofun
  pair := nofun
  identifier := nofun
  hash := nofun

/-- A call with a block behind its other children. -/
theorem laidOut_call_block {name : String} {receiver : Bool} {args : Nat} {params : List String}
    {span blockSpan : Span} {children body : List Tree}
    (h : children.length = receiver.toNat + args) :
    LaidOut tokens ⟨.call name receiver args true, span,
      children ++ [⟨.block params, blockSpan, body⟩]⟩ where
  call hkind := by
    obtain ⟨-, rfl, rfl, rfl⟩ := Kind.call.inj hkind
    simp [h]
  block _ := ⟨_, params, List.getLast?_concat, rfl⟩
  pair := nofun
  identifier := nofun
  hash := nofun

/-- A block that is attached to a node takes the last place among its children, or makes a callable
of it. -/
theorem laidOut_withBlock {tree : Tree} {body : List Tree}
    (htree : ∀ t ∈ tree.preorder, t.LaidOut tokens) (haccepts : Level.acceptsBlock tree = true)
    (hbody : ∀ c ∈ body, ∀ t ∈ c.preorder, t.LaidOut tokens) (params : List String)
    (blockSpan span : Span) :
    ∀ t ∈ (Level.withBlock tree params body blockSpan span).preorder, t.LaidOut tokens := by
  have hblock : ∀ t ∈ (⟨.block params, blockSpan, body⟩ : Tree).preorder, t.LaidOut tokens :=
    forall_mem_preorder.2 ⟨laidOut_of_kind rfl, hbody⟩
  obtain ⟨hnode, hchildren⟩ := forall_mem_preorder.1 htree
  unfold Level.withBlock
  split
  · exact forall_mem_preorder.2 ⟨laidOut_of_kind rfl, hbody⟩
  · unfold Level.acceptsBlock at haccepts
    simp only
    split
    · next name receiver args block hkind =>
      obtain rfl : block = false := by
        rw [hkind] at haccepts
        cases block with
        | false => rfl
        | true => cases haccepts
      refine forall_mem_preorder.2 ⟨laidOut_call_block (hnode.call hkind), ?_⟩
      exact List.forall_mem_append.2 ⟨hchildren, List.forall_mem_singleton.2 hblock⟩
    · refine forall_mem_preorder.2 ⟨laidOut_call_block rfl, ?_⟩
      exact List.forall_mem_singleton.2 hblock
    · next hcall hname =>
      split at haccepts
      · next hkind => exact absurd hkind (hname _)
      · next hkind => exact absurd hkind (hcall _ _ _ _)
      · cases haccepts

/-- Every node below a tree that the rules can make is laid out. -/
theorem Shaped.laidOut {role : Role} {n : Nat} {tree : Tree} (h : tree.Shaped tokens role n) :
    ∀ t ∈ tree.preorder, t.LaidOut tokens := by
  have hleaf : ∀ {kind : Kind} {span : Span}, (leaf kind span).LaidOut tokens →
      ∀ t ∈ (leaf kind span).preorder, t.LaidOut tokens :=
    fun h => forall_mem_preorder.2 ⟨h, List.forall_mem_nil _⟩
  have hconstant : ∀ {literal : Literal} {span : Span},
      ∀ t ∈ (leaf (.literal literal) span).preorder, t.LaidOut tokens :=
    hleaf (laidOut_of_kind rfl)
  induction h with
  | name name span => exact hleaf (laidOut_identifier name span)
  | constant => exact hconstant
  | @body n kind children hkind span _ ih =>
    refine forall_mem_preorder.2 ⟨laidOut_of_kind ?_, ih⟩
    cases kind <;> first | rfl | cases hkind
  | array _ _ ih => exact forall_mem_preorder.2 ⟨laidOut_of_kind rfl, ih⟩
  | @braced n brace children hbrace hkind last _ ih =>
    exact forall_mem_preorder.2 ⟨laidOut_hash (.inl ⟨brace, hbrace, hkind, rfl⟩), ih⟩
  | bare hne _ hpairs _ ih =>
    exact forall_mem_preorder.2 ⟨laidOut_hash (.inr ⟨hne, hpairs⟩), ih⟩
  | unary _ _ ih =>
    exact forall_mem_preorder.2 ⟨laidOut_of_kind rfl, List.forall_mem_singleton.2 ih⟩
  | group _ _ ih => exact forall_mem_preorder.2 ⟨laidOut_of_kind rfl, ih⟩
  | @call n receiver args name span _ _ ihreceiver ihargs =>
    refine forall_mem_preorder.2 ⟨laidOut_call ?_, ?_⟩
    · cases receiver <;> simp [Nat.add_comm]
    · intro c hc
      simp only [ofCall, Option.toList_none, List.append_nil, List.mem_append,
        Option.mem_toList] at hc
      exact hc.elim (ihreceiver c) (ihargs c)
  | blocked params blockSpan span _ haccepts _ ihtree ihbody =>
    exact laidOut_withBlock ihtree haccepts ihbody params blockSpan span
  | single _ ih => exact ih
  | chain _ _ ih => exact forall_mem_preorder.2 ⟨laidOut_of_kind rfl, ih⟩
  | statement _ ih => exact ih
  | positional _ ih => exact ih
  | pair _ _ ihkey ihvalue =>
    refine forall_mem_preorder.2 ⟨laidOut_ofPair _ _, ?_⟩
    exact List.forall_mem_cons.2 ⟨ihkey, List.forall_mem_singleton.2 ihvalue⟩
  | shorthand name span =>
    refine forall_mem_preorder.2 ⟨laidOut_ofPair _ _, ?_⟩
    exact List.forall_mem_cons.2 ⟨hconstant,
      List.forall_mem_singleton.2 (hleaf (laidOut_identifier name span))⟩
  | argument _ ih => exact ih
  | run hne _ hpairs _ ih =>
    exact forall_mem_preorder.2 ⟨laidOut_hash (.inr ⟨hne, hpairs⟩), ih⟩

/-- The children of a call are its receiver, its arguments and its block. -/
theorem LaidOut.children_eq (h : t.LaidOut tokens) {name : String} {receiver block : Bool}
    {args : Nat} (hkind : t.kind = .call name receiver args block) :
    t.args.length = args ∧ t.children = t.receiver?.toList ++ t.args ++ t.block?.toList := by
  have hlength := h.call hkind
  obtain ⟨kind, span, children⟩ := t
  obtain rfl : kind = .call name receiver args block := hkind
  simp only at hlength
  obtain ⟨first, others, rfl, hfirst⟩ :
      ∃ first others, children = first ++ others ∧ first.length = receiver.toNat :=
    ⟨children.take receiver.toNat, _, (List.take_append_drop _ _).symm,
      by rw [List.length_take]; omega⟩
  rw [List.length_append] at hlength
  obtain ⟨middle, last, rfl, hmiddle⟩ :
      ∃ middle last, others = middle ++ last ∧ middle.length = args :=
    ⟨others.take args, _, (List.take_append_drop _ _).symm, by rw [List.length_take]; omega⟩
  have hlast : last.length = block.toNat := by
    rw [List.length_append] at hlength
    omega
  have hargs : Tree.args ⟨.call name receiver args block, span, first ++ (middle ++ last)⟩ =
      middle := by
    simp only [Tree.args, ← hfirst, ← hmiddle, List.drop_left, List.take_left]
  have hreceiver : (Tree.receiver? ⟨.call name receiver args block, span,
      first ++ (middle ++ last)⟩).toList = first := by
    cases receiver with
    | false => exact (List.eq_nil_of_length_eq_zero hfirst).symm
    | true =>
      obtain ⟨r, rfl⟩ := List.length_eq_one_iff.1 hfirst
      rfl
  have hblock : (Tree.block? ⟨.call name receiver args block, span,
      first ++ (middle ++ last)⟩).toList = last := by
    cases block with
    | false => exact (List.eq_nil_of_length_eq_zero hlast).symm
    | true =>
      obtain ⟨b, rfl⟩ := List.length_eq_one_iff.1 hlast
      simp [Tree.block?]
  rw [hargs, hreceiver, hblock, List.append_assoc]
  exact ⟨hmiddle, rfl⟩

end LaidOut

end Tree

/-! ## whole sources -/

/-- A scan without faults gives the tokens that a scan gives that skips faults. -/
theorem Token.scanLossy_of_scan {source : String} {tokens : List Token}
    (h : scan source = .ok tokens) : (scanLossy source).1 = tokens := by
  rw [scan_eq] at h
  split at h
  · rw [scanLossy_eq]
    exact Except.ok.inj h
  · cases h

namespace Parsed

/-- The nodes of a source are laid out, whatever its tokens are. -/
theorem laidOut_ofTokens {tokens : List Token} {parsed : Parsed}
    (h : ofTokens tokens = .ok parsed) :
    ∀ t ∈ parsed.tree.preorder, t.LaidOut (Token.preorderAll tokens) := by
  obtain ⟨statements, htree, hshaped⟩ := shaped_ofTokens h
  rw [htree]
  cases statements with
  | nil => exact Tree.forall_mem_preorder.2 ⟨Tree.laidOut_of_kind rfl, List.forall_mem_nil _⟩
  | cons first rest =>
    exact Tree.forall_mem_preorder.2
      ⟨Tree.laidOut_of_kind rfl, fun c hc => (hshaped c hc).laidOut⟩

/-- **Layout of nodes.** Whether a source is parsed strictly or from what a scan with faults could
make of it, every node of its tree is laid out, and the children of a call are its receiver, as many
arguments as it counts, and its block. -/
theorem laidOut_tree (source : String) (parsed : Parsed)
    (h : ofSource source = .ok parsed ∨ ofTokens (Token.scanLossy source).1 = .ok parsed) :
    ∀ t ∈ parsed.tree.preorder, t.LaidOut (Token.preorderAll (Token.scanLossy source).1) ∧
      ∀ {name receiver args block}, t.kind = .call name receiver args block →
        t.args.length = args ∧ t.children = t.receiver?.toList ++ t.args ++ t.block?.toList := by
  have hparsed : ofTokens (Token.scanLossy source).1 = .ok parsed := by
    cases h with
    | inl h =>
      obtain ⟨tokens, hscan, h⟩ := ofSource_eq_ok h
      rwa [Token.scanLossy_of_scan hscan]
    | inr h => exact h
  intro t ht
  have hlaid := laidOut_ofTokens hparsed t ht
  exact ⟨hlaid, hlaid.children_eq⟩

/-- A call with a receiver, a labelled argument and a block, in which a hash stands. -/
def callWithHashes : String := "x.f(a, b: 1) \x7b |c| \x7b\x7d \x7d"

theorem laidOut_callWithHashes :
    ∃ parsed, ofSource callWithHashes = .ok parsed ∧
      parsed.tree.preorder.map Tree.kind =
        [.program, .call "f" true 2 true, .identifier "x", .identifier "a", .hash, .pair,
          .literal (.symbol "b"), .literal (.number "1"), .block ["c"], .hash] ∧
      ∀ t ∈ parsed.tree.preorder,
        t.LaidOut (Token.preorderAll (Token.scanLossy callWithHashes).1) := by
  have hkinds : (ofSource callWithHashes).toOption.map (·.tree.preorder.map Tree.kind) =
      some [.program, .call "f" true 2 true, .identifier "x", .identifier "a", .hash, .pair,
        .literal (.symbol "b"), .literal (.number "1"), .block ["c"], .hash] := by
    decide +kernel
  obtain ⟨parsed, hparse, hkinds⟩ := exists_of_map_toOption hkinds
  exact ⟨parsed, hparse, hkinds,
    fun t ht => (laidOut_tree callWithHashes parsed (.inl hparse) t ht).1⟩

end Parsed

end ConnectorAudit
