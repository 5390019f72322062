import ConnectorAudit.Proofs.Heredocs
import ConnectorAudit.Proofs.Spending

/-!
# The shapes of trees

What the rules of the grammar can make.  `Tree.Shaped` has a constructor for every way
in which a rule puts a tree together from the trees of its parts; it keeps the place in
the grammar that the tree stands at, and how many levels of nesting were still allowed
there.  What holds of every tree of a parse is shown by induction on it.

A rule also moves the parse on.  `Progress.Reaches` says that the tokens left behind a
rule are the last of those left before it; so they stay among the tokens of the source,
which is what `Progress.Within` says.

The parameters, the signatures and the loops of the grammar are here, each loop over
whatever rule it repeats.
-/

namespace ConnectorAudit

/-! ## what rules make -/

/-- A place in the grammar at which a tree can stand. -/
inductive Role where
  | operand
  | expression
  | statement
  /-- An entry, of arguments, of an array or of a hash. -/
  | entry
  /-- What an entry is in a call or an array, where a run of pairs is one hash. -/
  | argument

/-- The nodes that hold statements. -/
def Tree.Kind.holdsStatements : Tree.Kind → Bool
  | .literal _ | .callable _ | .block _ | .group => true
  | _ => false

/-- A tree that the rules can make of some tokens, where a number of levels is left. -/
inductive Tree.Shaped (tokens : List Token) : Role → Nat → Tree → Prop where
  | name {role : Role} {n : Nat} (name : String) (span : Span) :
    Shaped tokens role n (.leaf (.identifier name) span)
  | constant {role : Role} {n : Nat} (literal : Literal) (span : Span) :
    Shaped tokens role n (.leaf (.literal literal) span)
  /-- A literal with code inside, a group in parentheses, a body. -/
  | body {n : Nat} {kind : Kind} {children : List Tree} (hkind : kind.holdsStatements = true)
    (span : Span) (hchildren : ∀ c ∈ children, Shaped tokens .statement n c) :
    Shaped tokens .operand (n + 1) ⟨kind, span, children⟩
  | array {n : Nat} {children : List Tree} (span : Span)
    (hchildren : ∀ c ∈ children, Shaped tokens .argument n c) :
    Shaped tokens .operand (n + 1) ⟨.array, span, children⟩
  /-- A hash in braces. -/
  | braced {n : Nat} {brace : Token} {children : List Tree} (hbrace : brace ∈ tokens)
    (hkind : brace.kind = .braceOpen) (last : Span)
    (hchildren : ∀ c ∈ children, Shaped tokens .entry n c) :
    Shaped tokens .operand (n + 1) ⟨.hash, brace.span.through last, children⟩
  /-- A hash without braces. -/
  | bare {n : Nat} {children : List Tree} (hne : children ≠ []) (span : Span)
    (hpairs : ∀ c ∈ children, c.kind = .pair)
    (hchildren : ∀ c ∈ children, Shaped tokens .entry n c) :
    Shaped tokens .operand (n + 1) ⟨.hash, span, children⟩
  /-- An operator with its operand. -/
  | unary {n : Nat} {operand : Tree} (span : Span) (hoperand : Shaped tokens .operand n operand) :
    Shaped tokens .operand (n + 1) ⟨.group, span, [operand]⟩
  /-- A jump with its value, or a definition that is one expression. -/
  | group {n : Nat} {children : List Tree} (span : Span)
    (hchildren : ∀ c ∈ children, Shaped tokens .expression n c) :
    Shaped tokens .operand (n + 1) ⟨.group, span, children⟩
  | call {n : Nat} {receiver : Option Tree} {args : List Tree} (name : String) (span : Span)
    (hreceiver : ∀ r ∈ receiver, Shaped tokens .operand (n + 1) r)
    (hargs : ∀ a ∈ args, Shaped tokens .argument n a) :
    Shaped tokens .operand (n + 1) (.ofCall name receiver args none span)
  /-- A call, or a name, with a block. -/
  | blocked {n : Nat} {tree : Tree} {body : List Tree} (params : List String)
    (blockSpan span : Span) (htree : Shaped tokens .operand (n + 1) tree)
    (haccepts : Level.acceptsBlock tree = true)
    (hbody : ∀ c ∈ body, Shaped tokens .statement n c) :
    Shaped tokens .operand (n + 1) (Level.withBlock tree params body blockSpan span)
  | single {n : Nat} {tree : Tree} (htree : Shaped tokens .operand n tree) :
    Shaped tokens .expression (n + 1) tree
  /-- Operands with operators between them. -/
  | chain {n : Nat} {children : List Tree} (span : Span)
    (hchildren : ∀ c ∈ children, Shaped tokens .operand n c) :
    Shaped tokens .expression (n + 1) ⟨.group, span, children⟩
  | statement {n : Nat} {tree : Tree} (htree : Shaped tokens .expression n tree) :
    Shaped tokens .statement (n + 1) tree
  | positional {n : Nat} {tree : Tree} (htree : Shaped tokens .expression n tree) :
    Shaped tokens .entry (n + 1) tree
  | pair {n : Nat} {key value : Tree} (hkey : Shaped tokens .expression n key)
    (hvalue : Shaped tokens .expression n value) : Shaped tokens .entry (n + 1) (.ofPair key value)
  /-- A label that stands for a variable of its name. -/
  | shorthand {n : Nat} (name : String) (span : Span) :
    Shaped tokens .entry n
      (.ofPair (.leaf (.literal (.symbol name)) span) (.leaf (.identifier name) span))
  | argument {n : Nat} {tree : Tree} (htree : Shaped tokens .entry n tree) :
    Shaped tokens .argument n tree
  /-- A run of pairs. -/
  | run {n : Nat} {children : List Tree} (hne : children ≠ []) (span : Span)
    (hpairs : ∀ c ∈ children, c.kind = .pair)
    (hchildren : ∀ c ∈ children, Shaped tokens .entry n c) :
    Shaped tokens .argument n ⟨.hash, span, children⟩

/-- An entry that the rules can make; what is called a pair is one. -/
structure Entry.Shaped (tokens : List Token) (n : Nat) (e : Entry) : Prop where
  tree : e.tree.Shaped tokens .entry n
  pair : ∀ {tree : Tree}, e = .pair tree → tree.kind = .pair

section Arguments

variable {tokens : List Token} {n : Nat}

/-- A run of pairs is gathered into an argument. -/
theorem Tree.shaped_ofRun {run : List Tree} (hpairs : ∀ c ∈ run, c.kind = .pair)
    (hrun : ∀ c ∈ run, c.Shaped tokens .entry n) :
    ∀ tree ∈ Tree.ofRun run, tree.Shaped tokens .argument n := by
  cases run with
  | nil => exact List.forall_mem_nil _
  | cons first rest =>
    intro tree htree
    obtain rfl := List.mem_singleton.1 htree
    exact .run (List.cons_ne_nil first rest) _ hpairs hrun

/-- Arguments are positional entries and runs of pairs. -/
theorem shaped_collectArguments {entries : List Entry}
    (h : ∀ e ∈ entries, e.Shaped tokens n) {run : List Tree}
    (hpairs : ∀ c ∈ run, c.kind = .pair) (hrun : ∀ c ∈ run, c.Shaped tokens .entry n) :
    ∀ tree ∈ collectArguments run entries, tree.Shaped tokens .argument n := by
  have hdone : ∀ {run : List Tree}, (∀ c ∈ run, c.kind = .pair) →
      (∀ c ∈ run, c.Shaped tokens .entry n) →
      ∀ tree ∈ Tree.ofRun run.reverse, tree.Shaped tokens .argument n := fun hpairs hrun =>
    Tree.shaped_ofRun (fun c hc => hpairs c (List.mem_reverse.1 hc))
      fun c hc => hrun c (List.mem_reverse.1 hc)
  induction entries generalizing run with
  | nil => exact hdone hpairs hrun
  | cons e entries ih =>
    obtain ⟨he, hentries⟩ := List.forall_mem_cons.1 h
    cases e with
    | pair tree =>
      exact ih hentries (List.forall_mem_cons.2 ⟨he.pair rfl, hpairs⟩)
        (List.forall_mem_cons.2 ⟨he.tree, hrun⟩)
    | positional tree =>
      rw [collectArguments]
      refine List.forall_mem_append.2 ⟨hdone hpairs hrun, List.forall_mem_cons.2 ⟨?_, ?_⟩⟩
      · exact .argument he.tree
      · exact ih hentries (List.forall_mem_nil _) (List.forall_mem_nil _)

end Arguments

/-! ## where rules lead -/

/-- The tokens inside of a token inside of another one are inside of that, too. -/
theorem Token.preorder_subset {t u : Token} (h : u ∈ t.nested) : u.preorder ⊆ t.preorder := by
  obtain ⟨before, after, hnested⟩ := List.append_of_mem h
  rw [preorder_eq t, hnested, preorderAll_append, preorderAll]
  intro v hv
  simp [hv]

theorem Token.preorder_subset_preorderAll {t : Token} {ts : List Token} (h : t ∈ ts) :
    t.preorder ⊆ preorderAll ts := by
  obtain ⟨before, after, rfl⟩ := List.append_of_mem h
  rw [preorderAll_append, preorderAll]
  intro v hv
  simp [hv]

namespace Progress

/-- The tokens left at `q` are the last of those left at `p`. -/
def Reaches (p q : Progress) : Prop := q.feed.items <:+ p.feed.items

/-- The tokens left, and all tokens inside of them, are among some tokens. -/
def Within (tokens : List Token) (p : Progress) : Prop := ∀ t ∈ p.feed.items, t.preorder ⊆ tokens

variable {tokens : List Token} {p q r : Progress} {t : Token}

theorem Reaches.refl (p : Progress) : p.Reaches p := List.suffix_refl _

theorem Reaches.trans (hq : p.Reaches q) (hr : q.Reaches r) : p.Reaches r :=
  List.IsSuffix.trans hr hq

/-- What was noted does not matter. -/
theorem Reaches.congr (h : p.Reaches q) (hfeed : r.feed = q.feed) : p.Reaches r := by
  rw [Reaches, hfeed]
  exact h

theorem Reaches.left_le (h : p.Reaches q) : q.left ≤ p.left := by
  rw [left_eq_length, left_eq_length]
  exact List.IsSuffix.length_le h

/-- What is reached is within the same tokens. -/
theorem Reaches.within (h : p.Reaches q) (hp : p.Within tokens) : q.Within tokens :=
  fun t ht => hp t (List.IsSuffix.subset h ht)

theorem reaches_next? (h : p.next? = some (t, q)) : p.Reaches q := by
  rw [Reaches, items_next? h]
  exact List.suffix_cons t _

theorem left_lt_next? (h : p.next? = some (t, q)) : q.left < p.left := by
  rw [left_next? h]
  exact Nat.lt_succ_self _

theorem Within.head (hp : p.Within tokens) (h : p.next? = some (t, q)) : t.preorder ⊆ tokens :=
  hp t (by simp [items_next? h])

theorem reaches_skip (p : Progress) : p.Reaches p.skip := by
  unfold skip
  split
  · exact .refl p
  · next hnext => exact reaches_next? hnext

theorem reaches_expect {c : Closer} (h : p.expect c = .ok q) : p.Reaches q := by
  unfold expect at h
  split at h
  · cases h
  · next t r hnext =>
    split at h
    · obtain rfl := Except.ok.inj h
      exact reaches_next? hnext
    · cases h

/-- The tokens of a source. -/
theorem within_ofTokens {ts : List Token} (h : ∀ t ∈ ts, t.preorder ⊆ tokens) (last : Span) :
    (ofTokens ts last).Within tokens :=
  fun t ht => h t (List.mem_of_mem_filter ht)

/-! ## parameters and signatures -/

/-- Parameters are reached by going on. -/
theorem reaches_parameters {terminator : String} {ps : Parameters} {names : List String}
    (h : parameters terminator ps p = .ok (names, q)) : p.Reaches q := by
  obtain ⟨ts, last, hitems, -⟩ := items_parameters h
  exact ⟨ts ++ [last], by simp [hitems]⟩

theorem reaches_blockParameters {names : List String} (h : blockParameters p = .ok (names, q)) :
    p.Reaches q := by
  unfold blockParameters at h
  split at h
  · obtain ⟨-, rfl⟩ := Prod.mk.inj (Except.ok.inj h)
    exact .refl p
  · next t r hnext =>
    have hr := reaches_next? hnext
    split at h
    · obtain ⟨-, rfl⟩ := Prod.mk.inj (Except.ok.inj h)
      exact hr
    · split at h
      · exact hr.trans (reaches_parameters h)
      · obtain ⟨-, rfl⟩ := Prod.mk.inj (Except.ok.inj h)
        exact .refl p

theorem reaches_bareParameters (params : List String) (p : Progress) :
    p.Reaches (bareParameters params p).2 := by
  fun_induction bareParameters params p with
  | case1 => exact .refl _
  | case2 params p t r hnext _ _ ih => exact (reaches_next? hnext).trans ih
  | case3 => exact .refl _

theorem reaches_lambdaParameters {names : List String} (h : lambdaParameters p = .ok (names, q)) :
    p.Reaches q := by
  unfold lambdaParameters at h
  split at h
  · obtain ⟨-, rfl⟩ := Prod.mk.inj (Except.ok.inj h)
    exact .refl p
  · next t r hnext =>
    split at h
    · exact (reaches_next? hnext).trans (reaches_parameters h)
    · obtain ⟨-, rfl⟩ := Prod.mk.inj (Except.ok.inj h)
      exact reaches_bareParameters [] p

/-- A signature is reached by going on. -/
theorem reaches_signature (line parens : Nat) (p : Progress) :
    p.Reaches (signature line parens p).2 := by
  obtain ⟨ts, hts⟩ := items_signature line parens p
  exact ⟨ts, hts.symm⟩

end Progress

/-! ## rules and loops -/

/-- A tree was read on the way from `p` to `q`. -/
structure Shapes (tokens : List Token) (role : Role) (n : Nat) (p : Progress) (tree : Tree)
    (q : Progress) : Prop where
  reaches : p.Reaches q
  shaped : tree.Shaped tokens role n

/-- Trees were read on the way from `p` to `q`. -/
structure ShapesAll (tokens : List Token) (role : Role) (n : Nat) (p : Progress)
    (trees : List Tree) (q : Progress) : Prop where
  reaches : p.Reaches q
  shaped : ∀ tree ∈ trees, tree.Shaped tokens role n

section Results

variable {tokens : List Token} {role : Role} {n : Nat} {p q r : Progress} {tree : Tree}
  {trees : List Tree}

/-- Coming from before without a tree. -/
theorem Shapes.into (hq : p.Reaches q) (h : Shapes tokens role n q tree r) :
    Shapes tokens role n p tree r :=
  ⟨hq.trans h.reaches, h.shaped⟩

theorem ShapesAll.nil (p : Progress) : ShapesAll tokens role n p [] p :=
  ⟨.refl p, List.forall_mem_nil _⟩

/-- Going on without a tree. -/
theorem ShapesAll.onto (h : ShapesAll tokens role n p trees q) (hr : q.Reaches r) :
    ShapesAll tokens role n p trees r :=
  ⟨h.reaches.trans hr, h.shaped⟩

/-- One more tree, in front of those read before it, as the loops keep them. -/
theorem ShapesAll.cons (h : ShapesAll tokens role n p trees q)
    (htree : Shapes tokens role n q tree r) : ShapesAll tokens role n p (tree :: trees) r :=
  ⟨h.reaches.trans htree.reaches, List.forall_mem_cons.2 ⟨htree.shaped, h.shaped⟩⟩

theorem ShapesAll.reverse (h : ShapesAll tokens role n p trees q) :
    ShapesAll tokens role n p trees.reverse q :=
  ⟨h.reaches, fun tree htree => h.shaped tree (List.mem_reverse.1 htree)⟩

end Results

/-- The rule reads a tree and uses tokens. -/
def ShapesTree (tokens : List Token) (role : Role) (n : Nat) (rule : Rule Tree) : Prop :=
  ∀ ⦃p tree q⦄, p.Within tokens → rule p = .ok (tree, q) →
    Shapes tokens role n p tree q ∧ q.left < p.left

/-- The rule reads an entry and uses tokens; what it reads from a label on is a pair. -/
def ShapesEntry (tokens : List Token) (n : Nat) (rule : Rule Entry) : Prop :=
  ∀ ⦃p e q⦄, p.Within tokens → rule p = .ok (e, q) →
    p.Reaches q ∧ q.left < p.left ∧ e.Shaped tokens n ∧
      (p.peek?.any (·.kind == .label) = true → e.tree.kind = .pair)

section Loops

variable {tokens : List Token} {role : Role} {n : Nat} {p q start : Progress}

/-- Statements follow each other, up to the end of the tokens if nothing closes them. -/
theorem ShapesTree.statementLoop {rule : Rule Tree} (hrule : ShapesTree tokens role n rule)
    {c : Closer} {done trees : List Tree} (hp : p.Within tokens)
    (hdone : ShapesAll tokens role n start done p)
    (h : Level.statementLoop rule c done p = .ok (trees, q)) :
    ShapesAll tokens role n start trees q ∧ (c = .eof → q.feed.items = []) := by
  fun_induction Level.statementLoop rule c done p with
  | case1 done p hnone =>
    obtain ⟨rfl, rfl⟩ := Prod.mk.inj (Except.ok.inj h)
    exact ⟨hdone.reverse, fun _ => Progress.items_of_next?_none hnone⟩
  | case2 => cases h
  | case3 done p t r hnext _ hc =>
    obtain ⟨rfl, rfl⟩ := Prod.mk.inj (Except.ok.inj h)
    refine ⟨hdone.reverse, ?_⟩
    rintro rfl
    cases hc
  | case4 => cases h
  | case5 done p t r hnext _ _ _ _ ih =>
    have hr := Progress.reaches_next? hnext
    exact ih (hr.within hp) (hdone.onto hr) h
  | case6 => cases h
  | case7 done p t r hnext _ _ _ _ tree r' hread _ ih =>
    obtain ⟨htree, -⟩ := hrule hp hread
    exact ih (htree.reaches.within hp) (hdone.cons htree) h
  | case8 done p t r hnext _ _ _ _ tree r' hread hstuck =>
    exact absurd (hrule hp hread).2 hstuck

/-- Operands follow each other, with operators in between. -/
theorem ShapesTree.operandLoop {rule : Rule Tree} (hrule : ShapesTree tokens role n rule)
    {ctx : Context} {done trees : List Tree} (hp : p.Within tokens)
    (hdone : ShapesAll tokens role n start done p)
    (h : Level.operandLoop rule ctx done p = .ok (trees, q)) :
    ShapesAll tokens role n start trees q := by
  fun_induction Level.operandLoop rule ctx done p with
  | case1 =>
    obtain ⟨rfl, rfl⟩ := Prod.mk.inj (Except.ok.inj h)
    exact hdone.reverse
  | case2 =>
    obtain ⟨rfl, rfl⟩ := Prod.mk.inj (Except.ok.inj h)
    exact hdone.reverse
  | case3 done p t r hnext =>
    obtain ⟨rfl, rfl⟩ := Prod.mk.inj (Except.ok.inj h)
    exact (hdone.onto (Progress.reaches_next? hnext)).reverse
  | case4 => cases h
  | case5 done p t r hnext _ _ tree r' hread _ ih =>
    have hr := Progress.reaches_next? hnext
    obtain ⟨htree, -⟩ := hrule (hr.within hp) hread
    exact ih (htree.reaches.within (hr.within hp)) ((hdone.onto hr).cons htree) h
  | case6 done p t r hnext _ _ tree r' hread hstuck =>
    have hr := Progress.reaches_next? hnext
    exact absurd (Nat.lt_of_lt_of_le (hrule (hr.within hp) hread).2 hr.left_le) hstuck

theorem Progress.reaches_entriesEnd? {c : Option Closer}
    (h : Level.entriesEnd? c p = .ok (some q)) : p.Reaches q := by
  unfold Level.entriesEnd? at h
  split at h
  · cases h
  · next c t r hnext =>
    split at h
    · obtain rfl := Option.some.inj (Except.ok.inj h)
      exact reaches_next? hnext
    · split at h <;> cases h
  · obtain rfl := Option.some.inj (Except.ok.inj h)
    exact .refl p
  · split at h
    · obtain rfl := Option.some.inj (Except.ok.inj h)
      exact .refl p
    · cases h

theorem Progress.reaches_afterEntry {c : Option Closer} {more : Bool}
    (h : Level.afterEntry c p = .ok (more, q)) : p.Reaches q := by
  unfold Level.afterEntry at h
  split at h
  · obtain ⟨-, rfl⟩ := Prod.mk.inj (Except.ok.inj h)
    exact .refl p
  · obtain ⟨-, rfl⟩ := Prod.mk.inj (Except.ok.inj h)
    exact .refl p
  · next t r hnext =>
    split at h
    · obtain ⟨-, rfl⟩ := Prod.mk.inj (Except.ok.inj h)
      exact reaches_next? hnext
    · obtain ⟨-, rfl⟩ := Prod.mk.inj (Except.ok.inj h)
      exact .refl p
  · next c t r hnext =>
    split at h
    · obtain ⟨-, rfl⟩ := Prod.mk.inj (Except.ok.inj h)
      exact reaches_next? hnext
    · split at h
      · obtain ⟨-, rfl⟩ := Prod.mk.inj (Except.ok.inj h)
        exact .refl p
      · split at h
        · cases h
        · obtain ⟨-, rfl⟩ := Prod.mk.inj (Except.ok.inj h)
          exact .congr (.refl p) rfl

/-- Entries follow each other, up to what closes them. -/
theorem ShapesEntry.entryLoop {rule : Rule Entry} (hrule : ShapesEntry tokens n rule)
    {c : Option Closer} {done entries : List Entry} (hp : p.Within tokens)
    (hstart : start.Reaches p) (hdone : ∀ e ∈ done, e.Shaped tokens n)
    (h : Level.entryLoop rule c done p = .ok (entries, q)) :
    start.Reaches q ∧ ∀ e ∈ entries, e.Shaped tokens n := by
  have hend : ∀ {done : List Entry}, (∀ e ∈ done, e.Shaped tokens n) →
      ∀ e ∈ done.reverse, e.Shaped tokens n := fun h e he => h e (List.mem_reverse.1 he)
  fun_induction Level.entryLoop rule c done p with
  | case1 => cases h
  | case2 done p r hclosed =>
    obtain ⟨rfl, rfl⟩ := Prod.mk.inj (Except.ok.inj h)
    exact ⟨hstart.trans (Progress.reaches_entriesEnd? hclosed), hend hdone⟩
  | case3 => cases h
  | case4 => cases h
  | case5 done p _ e r hread more s hafter _ ih =>
    obtain ⟨hr, -, he, -⟩ := hrule hp hread
    have hs := hr.trans (Progress.reaches_afterEntry hafter)
    exact ih (hs.within hp) (hstart.trans hs) (List.forall_mem_cons.2 ⟨he, hdone⟩) h
  | case6 done p _ e r hread more s hafter =>
    obtain ⟨hr, -, he, -⟩ := hrule hp hread
    obtain ⟨rfl, rfl⟩ := Prod.mk.inj (Except.ok.inj h)
    have hs := hr.trans (Progress.reaches_afterEntry hafter)
    exact ⟨hstart.trans hs, hend (List.forall_mem_cons.2 ⟨he, hdone⟩)⟩

/-- Behind a comma stands the token that was second. -/
theorem Progress.peek?_skip (p : Progress) : p.skip.peek? = p.peekSecond? := by
  unfold skip
  split
  · next hnone => simp [peek?, peekSecond?, Feed.head?, items_of_next?_none hnone]
  · next t q hnext => simp [peek?, peekSecond?, Feed.head?, items_next? hnext]

/-- Labelled entries follow each other; all are pairs, and there is at least one. -/
theorem ShapesEntry.labelLoop {rule : Rule Entry} (hrule : ShapesEntry tokens n rule)
    {done trees : List Tree} (hp : p.Within tokens)
    (hlabel : p.peek?.any (·.kind == .label) = true)
    (hdone : ShapesAll tokens .entry n start done p) (hpairs : ∀ c ∈ done, c.kind = .pair)
    (h : Level.labelLoop rule done p = .ok (trees, q)) :
    ShapesAll tokens .entry n start trees q ∧ trees ≠ [] ∧ (∀ c ∈ trees, c.kind = .pair) ∧
      q.left < start.left := by
  fun_induction Level.labelLoop rule done p with
  | case1 => cases h
  | case2 done p e r hread _ hmore ih =>
    obtain ⟨hr, -, he, hpair⟩ := hrule hp hread
    have hskip := hr.trans r.reaches_skip
    have hnext : r.skip.peek?.any (·.kind == .label) = true := by
      rw [Progress.peek?_skip]
      exact (Bool.and_eq_true_iff.1 (Bool.and_eq_true_iff.1 hmore).1).2
    exact ih (hskip.within hp) hnext ((hdone.cons ⟨hr, he.tree⟩).onto r.reaches_skip)
      (List.forall_mem_cons.2 ⟨hpair hlabel, hpairs⟩) h
  | case3 done p e r hread =>
    obtain ⟨hr, hlt, he, hpair⟩ := hrule hp hread
    obtain ⟨rfl, rfl⟩ := Prod.mk.inj (Except.ok.inj h)
    have hkinds : ∀ c ∈ e.tree :: done, c.kind = .pair :=
      List.forall_mem_cons.2 ⟨hpair hlabel, hpairs⟩
    refine ⟨(hdone.cons ⟨hr, he.tree⟩).reverse, by simp,
      fun c hc => hkinds c (List.mem_reverse.1 hc), ?_⟩
    exact Nat.lt_of_lt_of_le hlt hdone.reaches.left_le

end Loops

end ConnectorAudit
