import ConnectorAudit.Proofs.Literals
import ConnectorAudit.Proofs.Readings
import ConnectorAudit.Proofs.Traversals

/-!
# What a parse spends

The rules of the grammar, as to the tokens they use up.  `Spends` says of a stretch
of a parse that there is a reading of its tokens, which brackets it finds open and
leaves open, and that its trees hold the commands of the reading.  Stretches follow
each other (`Spends.trans`), so that a rule spends what its parts do.

The parameters, the signatures and the loops of the grammar are here, each loop over
whatever rule it repeats.
-/

namespace ConnectorAudit

/-! ## the commands of trees -/

namespace Tree

/-- Where the command literals of some trees stand, in order. -/
def commandSpans (ts : List Tree) : List Span :=
  ((preorderAll ts).filter (·.kind == .literal .command)).map Tree.span

@[simp]
theorem commandSpans_nil : commandSpans [] = [] := by simp [commandSpans, preorderAll]

@[simp]
theorem commandSpans_append (ts us : List Tree) :
    commandSpans (ts ++ us) = commandSpans ts ++ commandSpans us := by
  simp [commandSpans, preorderAll_append]

theorem commandSpans_cons (t : Tree) (ts : List Tree) :
    commandSpans (t :: ts) = commandSpans [t] ++ commandSpans ts :=
  commandSpans_append [t] ts

/-- A node that is no command has the commands of its children. -/
theorem commandSpans_node {kind : Kind} (hkind : kind ≠ .literal .command) (span : Span)
    (children : List Tree) : commandSpans [⟨kind, span, children⟩] = commandSpans children := by
  simp [commandSpans, preorderAll, preorder, hkind]

/-- The commands of a node that is none are those of its children. -/
theorem commandSpans_children {t : Tree} (h : t.kind ≠ .literal .command) :
    commandSpans [t] = commandSpans t.children := by
  cases t
  exact commandSpans_node h _ _

theorem commandSpans_command (span : Span) (children : List Tree) :
    commandSpans [⟨.literal .command, span, children⟩] = span :: commandSpans children := by
  simp [commandSpans, preorderAll, preorder]

@[simp]
theorem commandSpans_ofPair (key value : Tree) :
    commandSpans [ofPair key value] = commandSpans [key] ++ commandSpans [value] := by
  rw [ofPair, commandSpans_node (by simp), commandSpans_cons]

@[simp]
theorem commandSpans_ofCall (name : String) (receiver : Option Tree) (args : List Tree)
    (block : Option Tree) (span : Span) :
    commandSpans [ofCall name receiver args block span] =
      commandSpans receiver.toList ++ commandSpans args ++ commandSpans block.toList := by
  rw [ofCall, commandSpans_node (by simp), commandSpans_append, commandSpans_append]

/-- Gathering a run into a hash keeps its commands. -/
theorem commandSpans_ofRun (run : List Tree) : commandSpans (ofRun run) = commandSpans run := by
  cases run with
  | nil => rfl
  | cons first rest => exact commandSpans_node (by simp) _ _

/-- Gathering pairs into hashes loses no command. -/
theorem commandSpans_collectArguments (run : List Tree) (entries : List Entry) :
    commandSpans (collectArguments run entries) =
      commandSpans (run.reverse ++ entries.map Entry.tree) := by
  induction entries generalizing run with
  | nil => simp [collectArguments, commandSpans_ofRun]
  | cons e entries ih =>
    cases e with
    | pair tree =>
      rw [collectArguments, ih]
      simp [Entry.tree]
    | positional tree =>
      rw [collectArguments, commandSpans_append, commandSpans_ofRun, commandSpans_cons, ih,
        List.map_cons, commandSpans_append run.reverse, commandSpans_cons (Entry.tree _)]
      rfl

end Tree

/-! ## tokens that are used up -/

namespace Token

/-- Neither a bracket nor a literal that may interpolate. -/
def Idle (t : Token) : Prop := t.mayInterpolate = false ∧ t.isPlain = true

theorem idle_of_isPunct {t : Token} {text : String} (h : t.isPunct text = true)
    (htext : text ∉ ["(", ")", "[", "]"]) : t.Idle := by
  have hpunct : t.kind = .punctuation ∧ t.text = text := by simpa [isPunct] using h
  exact ⟨bare_of_isPunct h, isPlain_of_punct hpunct.1 (hpunct.2 ▸ htext)⟩

/-- The kinds of which all tokens are idle. -/
theorem idle_of_kind {t : Token} (h : t.kind ∈ [.identifier, .label, .numeral, .blockStart,
    .blockEnd, .comment, .other]) : t.Idle := by
  simp only [List.mem_cons, List.not_mem_nil, or_false] at h
  rcases h with h | h | h | h | h | h | h <;>
    exact ⟨bare_of_kind (by simp [h]), isPlain_of_kind (by simp [h]) (by simp [h]) (by simp [h])⟩

end Token

/-- What opens a bracket interpolates nothing. -/
theorem Closer.bare_of_opens {c : Closer} {t : Token}
    (h : c.opens t = true) : t.mayInterpolate = false := by
  cases c with
  | eof => cases h
  | paren => exact Token.bare_of_isPunct h
  | bracket => exact Token.bare_of_isPunct h
  | brace | keyword =>
    simp only [Closer.opens, beq_iff_eq] at h
    exact Token.bare_of_kind (by simp [h])

theorem Closer.bare_of_matches {c : Closer} {t : Token}
    (h : c.matches t = true) : t.mayInterpolate = false := by
  cases c with
  | eof => cases h
  | paren => exact Token.bare_of_isPunct h
  | bracket => exact Token.bare_of_isPunct h
  | brace | keyword =>
    simp only [Closer.matches, beq_iff_eq] at h
    exact Token.bare_of_kind (by simp [h])

namespace Progress

variable {p q : Progress} {t : Token}

def Formed (p : Progress) : Prop := ∀ t ∈ p.feed.items, t.Formed

theorem items_next? (h : p.next? = some (t, q)) : p.feed.items = t :: q.feed.items := by
  unfold next? at h
  split at h
  · cases h
  · next u feed hfeed =>
    obtain ⟨rfl, rfl⟩ := Prod.mk.inj (Option.some.inj h)
    exact Feed.next?_eq_some_iff.1 hfeed

theorem items_of_next?_none (h : p.next? = none) : p.feed.items = [] := by
  unfold next? at h
  split at h
  · next hfeed =>
    rw [← Feed.ofList_items p.feed] at hfeed
    cases hitems : p.feed.items with
    | nil => rfl
    | cons t ts => simp [hitems] at hfeed
  · cases h

theorem left_eq_length (p : Progress) : p.left = p.feed.items.length := p.feed.count_eq

/-- A token that is seen is the next one. -/
theorem next?_of_peek? {test : Token → Bool} (h : p.peek?.any test = true) :
    ∃ t, p.next? = some (t, p.skip) ∧ test t = true := by
  unfold skip
  split
  · next hnone => simp [peek?, Feed.head?, items_of_next?_none hnone] at h
  · next t q hnext =>
    refine ⟨t, hnext, ?_⟩
    simpa [peek?, Feed.head?, items_next? hnext] using h

theorem Formed.head (hp : p.Formed) (h : p.next? = some (t, q)) : t.Formed :=
  hp t (by simp [items_next? h])

end Progress

/-- On the way from `p` to `q` tokens are used up that can be read so that the trees hold their
commands, and that lead from the brackets `before` to the brackets `after`. -/
def Spends (before after : List Bracket) (p : Progress) (trees : List Tree) (q : Progress) : Prop :=
  ∃ xs s, p.feed.items = xs ++ q.feed.items ∧ Reading xs s ∧ nest before s.kept = some after ∧
    s.commands.map Token.span = Tree.commandSpans trees

namespace Spends

variable {before between after : List Bracket} {p q r : Progress} {trees us : List Tree} {t : Token}

theorem refl (outer : List Bracket) (p : Progress) : Spends outer outer p [] p :=
  ⟨[], {}, rfl, .nil, rfl, by simp⟩

/-- What is spent adds up. -/
theorem trans (hq : Spends before between p trees q) (hr : Spends between after q us r) :
    Spends before after p (trees ++ us) r := by
  obtain ⟨xs, s, hitems, hread, hnest, hspans⟩ := hq
  obtain ⟨ys, t, hitems', hread', hnest', hspans'⟩ := hr
  refine ⟨xs ++ ys, s ++ t, ?_, hread.append hread', ?_, ?_⟩
  · rw [hitems, hitems', List.append_assoc]
  · rw [Summary.kept_append, nest_append, hnest]
    exact hnest'
  · rw [Summary.commands_append, List.map_append, hspans, hspans', Tree.commandSpans_append]

/-- Going on without a tree. -/
theorem onto (hq : Spends before between p trees q) (hr : Spends between after q [] r) :
    Spends before after p trees r := by
  simpa using hq.trans hr

/-- Coming from before without a tree. -/
theorem into (hq : Spends before between p [] q) (hr : Spends between after q trees r) :
    Spends before after p trees r := by
  simpa using hq.trans hr

/-- What is open all around does not matter. -/
theorem frame (h : Spends before after p trees q) (outer : List Bracket) :
    Spends (before ++ outer) (after ++ outer) p trees q := by
  obtain ⟨xs, s, hitems, hread, hnest, hspans⟩ := h
  exact ⟨xs, s, hitems, hread, nest_frame hnest outer, hspans⟩

/-- Only the commands of the trees matter. -/
theorem congr (h : Spends before after p trees q)
    (htrees : Tree.commandSpans us = Tree.commandSpans trees) : Spends before after p us q := by
  obtain ⟨xs, s, hitems, hread, hnest, hspans⟩ := h
  exact ⟨xs, s, hitems, hread, hnest, hspans.trans htrees.symm⟩

/-- A node that is no command spends what its children do. -/
theorem node (h : Spends before after p trees q) {kind : Tree.Kind}
    (hkind : kind ≠ .literal .command) (span : Span) :
    Spends before after p [⟨kind, span, trees⟩] q :=
  h.congr (Tree.commandSpans_node hkind span trees)

theorem left_le (h : Spends before after p trees q) : q.left ≤ p.left := by
  obtain ⟨xs, -, hitems, -⟩ := h
  simp [Progress.left_eq_length, hitems]

theorem formed (h : Spends before after p trees q) (hp : p.Formed) : q.Formed := by
  obtain ⟨xs, -, hitems, -⟩ := h
  intro t ht
  exact hp t (hitems ▸ List.mem_append_right _ ht)

/-- Only the tokens left matter of where the parse has come to. -/
theorem congr_right (h : Spends before after p trees q) (hfeed : r.feed = q.feed) :
    Spends before after p trees r := by
  obtain ⟨xs, s, hitems, hread, hnest, hspans⟩ := h
  exact ⟨xs, s, hfeed ▸ hitems, hread, hnest, hspans⟩

end Spends

/-- Tokens are spent, and at least one is. -/
structure Takes (before after : List Bracket) (p : Progress) (trees : List Tree) (q : Progress) :
    Prop where
  spends : Spends before after p trees q
  left_lt : q.left < p.left

namespace Takes

variable {before between after : List Bracket} {p q r : Progress} {trees us : List Tree} {t : Token}

theorem formed (h : Takes before after p trees q) (hp : p.Formed) : q.Formed := h.spends.formed hp

/-- What is taken and spent adds up. -/
theorem trans (hq : Takes before between p trees q) (hr : Spends between after q us r) :
    Takes before after p (trees ++ us) r :=
  ⟨hq.spends.trans hr, Nat.lt_of_le_of_lt hr.left_le hq.left_lt⟩

theorem onto (hq : Takes before between p trees q) (hr : Spends between after q [] r) :
    Takes before after p trees r :=
  ⟨hq.spends.onto hr, Nat.lt_of_le_of_lt hr.left_le hq.left_lt⟩

theorem into (hq : Takes before between p [] q) (hr : Spends between after q trees r) :
    Takes before after p trees r :=
  ⟨hq.spends.into hr, Nat.lt_of_le_of_lt hr.left_le hq.left_lt⟩

theorem congr (h : Takes before after p trees q)
    (htrees : Tree.commandSpans us = Tree.commandSpans trees) : Takes before after p us q :=
  ⟨h.spends.congr htrees, h.left_lt⟩

theorem node (h : Takes before after p trees q) {kind : Tree.Kind}
    (hkind : kind ≠ .literal .command) (span : Span) :
    Takes before after p [⟨kind, span, trees⟩] q :=
  ⟨h.spends.node hkind span, h.left_lt⟩

theorem congr_right (h : Takes before after p trees q) (hfeed : r.feed = q.feed) :
    Takes before after p trees r :=
  ⟨h.spends.congr_right hfeed, by simpa only [Progress.left, hfeed] using h.left_lt⟩

/-- One token that is read for what it is. -/
theorem next (hp : p.Formed) (h : p.next? = some (t, q)) (hbare : t.mayInterpolate = false)
    (hstep : Bracket.step before t = some after) : Takes before after p [] q := by
  refine ⟨⟨[t], { kept := [t] }, Progress.items_next? h, .bare (hp.head h) hbare, ?_, by simp⟩, ?_⟩
  · exact (nest_singleton before t).trans hstep
  · rw [Progress.left_next? h]
    exact Nat.lt_succ_self _

/-- An idle token is taken without a trace. -/
theorem idle (hp : p.Formed) (h : p.next? = some (t, q)) (ht : t.Idle) (outer : List Bracket) :
    Takes outer outer p [] q :=
  next hp h ht.1 (Bracket.step_of_plain ht.2 outer)

/-- An opener is taken, and its bracket waits. -/
theorem opener (hp : p.Formed) {c : Closer} (h : p.next? = some (t, q)) (hc : c.opens t = true) :
    Takes [] c.awaits p [] q :=
  next hp h (Closer.bare_of_opens hc) (Closer.step_of_opens hc)

/-- A closer is taken, and its bracket waits no more. -/
theorem closer (hp : p.Formed) {c : Closer} (h : p.next? = some (t, q)) (hc : c.matches t = true) :
    Takes c.awaits [] p [] q :=
  next hp h (Closer.bare_of_matches hc) (Closer.step_of_matches hc)

end Takes

/-- What stands before its closer. -/
theorem Spends.expect {p q r : Progress} {trees : List Tree} (hp : p.Formed)
    (hq : Spends [] [] p trees q) {c : Closer} (h : q.expect c = .ok r) :
    Spends c.awaits [] p trees r := by
  have hinner : Spends c.awaits c.awaits p trees q := by simpa using hq.frame c.awaits
  unfold Progress.expect at h
  split at h
  · cases h
  · next t s hnext =>
    split at h
    · next hc =>
      obtain rfl := Except.ok.inj h
      exact hinner.onto (Takes.closer (hq.formed hp) hnext hc).spends
    · cases h

/-! ## parameters and signatures -/

/-- What is passed over as parameters ends in the terminator. -/
theorem items_parameters {terminator : String} {ps : Parameters} {p q : Progress}
    {names : List String} (h : parameters terminator ps p = .ok (names, q)) :
    ∃ ts last, p.feed.items = ts ++ last :: q.feed.items ∧ last.isPunct terminator = true := by
  fun_induction parameters terminator ps p with
  | case1 => cases h
  | case2 ps p t r hnext _ hend =>
    obtain ⟨-, rfl⟩ := Prod.mk.inj (Except.ok.inj h)
    exact ⟨[], t, Progress.items_next? hnext, hend.2⟩
  | case3 => cases h
  | case4 ps p t r hnext _ _ _ ih =>
    obtain ⟨ts, last, hitems, hlast⟩ := ih h
    exact ⟨t :: ts, last, by rw [Progress.items_next? hnext, hitems, List.cons_append], hlast⟩

/-- A signature takes up some of the tokens. -/
theorem items_signature (line parens : Nat) (p : Progress) :
    ∃ ts, p.feed.items = ts ++ (signature line parens p).2.feed.items := by
  fun_induction signature line parens p with
  | case1 => exact ⟨[], rfl⟩
  | case2 => exact ⟨[], rfl⟩
  | case3 parens p t r hnext _ _ _ ih =>
    obtain ⟨ts, hts⟩ := ih
    exact ⟨t :: ts, by rw [Progress.items_next? hnext, List.cons_append, ← hts]⟩
  | case4 parens p t r hnext _ _ _ _ ih =>
    obtain ⟨ts, hts⟩ := ih
    exact ⟨t :: ts, by rw [Progress.items_next? hnext, List.cons_append, ← hts]⟩
  | case5 parens p t r hnext => exact ⟨[t], Progress.items_next? hnext⟩
  | case6 parens p t r hnext _ _ _ _ _ ih =>
    obtain ⟨ts, hts⟩ := ih
    exact ⟨t :: ts, by rw [Progress.items_next? hnext, List.cons_append, ← hts]⟩

/-- What closes the block that a token opens. -/
def Token.blockCloser (t : Token) : Closer := if t.kind = .braceOpen then .brace else .keyword

theorem Token.opens_blockCloser {t : Token} (h : t.opensBlock = true) :
    t.blockCloser.opens t = true := by
  rw [opensBlock, Bool.or_eq_true, Bool.and_eq_true] at h
  rcases h with h | ⟨h, -⟩
  · have hkind : t.kind = .braceOpen := by simpa using h
    simp [blockCloser, Closer.opens, hkind]
  · have hkind : t.kind = .blockStart := by simpa using h
    simp [blockCloser, Closer.opens, hkind]

namespace Takes

variable {outer : List Bracket} {p q r : Progress} {t first : Token} {names : List String}

/-- The parameters behind an arrow or the opener of a block. -/
theorem parameters {after : List Bracket} {terminator : String}
    (hopener : p.next? = some (t, q)) (hstep : Bracket.step [] t = some after)
    (hfirst : q.next? = some (first, r)) {s : Progress}
    (h : ConnectorAudit.parameters terminator {} r = .ok (names, s))
    (henclose : ∀ last, last.isPunct terminator = true → t.encloseParameters first last = true ∧
      nest after [first, last] = some after) :
    Takes [] after p [] s := by
  obtain ⟨ts, last, hitems, hlast⟩ := items_parameters h
  have htext : last.text = terminator := by
    simp only [Token.isPunct, Bool.and_eq_true, beq_iff_eq] at hlast
    exact hlast.2
  have hpassed : PassedAsParameters ts last := ⟨r, s, names, htext ▸ h, hitems⟩
  have hall : p.feed.items = t :: first :: (ts ++ [last]) ++ s.feed.items := by
    rw [Progress.items_next? hopener, Progress.items_next? hfirst, hitems]
    simp
  refine ⟨⟨_, _, hall, .parameters (henclose last hlast).1 hpassed, ?_, by simp⟩, ?_⟩
  · change nest [] (t :: [first, last]) = some after
    rw [nest_cons, hstep]
    exact (henclose last hlast).2
  · rw [Progress.left_eq_length, Progress.left_eq_length, hall]
    simp only [List.length_append, List.length_cons]
    omega

/-- The opener of a block and its parameters. -/
theorem blockParameters (hp : p.Formed) (hopener : p.next? = some (t, q))
    (ht : t.opensBlock = true) (h : ConnectorAudit.blockParameters q = .ok (names, r)) :
    Takes [] t.blockCloser.awaits p [] r := by
  have hcloser := Token.opens_blockCloser ht
  have hopen : Takes [] t.blockCloser.awaits p [] q := opener hp hopener hcloser
  unfold ConnectorAudit.blockParameters at h
  split at h
  · obtain ⟨-, rfl⟩ := Prod.mk.inj (Except.ok.inj h)
    exact hopen
  · next first s hfirst =>
    split at h
    · next hbars =>
      obtain ⟨-, rfl⟩ := Prod.mk.inj (Except.ok.inj h)
      have hidle : first.Idle := Token.idle_of_isPunct hbars (by decide)
      exact hopen.onto (idle (hopen.formed hp) hfirst hidle _).spends
    · split at h
      · next hbar =>
        refine parameters hopener (Closer.step_of_opens hcloser) hfirst h fun last hlast => ?_
        refine ⟨by simp [Token.encloseParameters, ht, hbar, hlast], ?_⟩
        exact nest_pair (Bracket.step_of_plain (Token.idle_of_isPunct hbar (by decide)).2 _)
          (Bracket.step_of_plain (Token.idle_of_isPunct hlast (by decide)).2 _)
      · obtain ⟨-, rfl⟩ := Prod.mk.inj (Except.ok.inj h)
        exact hopen

theorem bareParameters (hp : p.Formed) (params : List String) :
    Spends outer outer p [] (ConnectorAudit.bareParameters params p).2 := by
  fun_induction ConnectorAudit.bareParameters params p with
  | case1 => exact .refl outer _
  | case2 params p t r hnext _ hparam ih =>
    have hidle : t.Idle := by
      simp only [Token.isBareParameter, Bool.and_eq_true, Bool.or_eq_true, beq_iff_eq] at hparam
      rcases hparam.1 with (((h | h) | h) | h) | h
      · exact Token.idle_of_kind (by simp [h])
      · exact Token.idle_of_kind (by simp [h])
      · exact Token.idle_of_isPunct h (by decide)
      · exact Token.idle_of_isPunct h (by decide)
      · exact Token.idle_of_isPunct h (by decide)
    have hr := (idle hp hnext hidle outer).spends
    exact hr.into (ih (hr.formed hp))
  | case3 => exact .refl outer _

/-- The arrow of a lambda and its parameters. -/
theorem lambdaParameters (hp : p.Formed) (harrow : p.next? = some (t, q))
    (ht : t.isPunct "->" = true) (h : ConnectorAudit.lambdaParameters q = .ok (names, r)) :
    Takes [] [] p [] r := by
  have hidle : t.Idle := Token.idle_of_isPunct ht (by decide)
  have hopen : Takes [] [] p [] q := idle hp harrow hidle []
  unfold ConnectorAudit.lambdaParameters at h
  split at h
  · obtain ⟨-, rfl⟩ := Prod.mk.inj (Except.ok.inj h)
    exact hopen
  · next first s hfirst =>
    split at h
    · next hparen =>
      refine parameters harrow (Bracket.step_of_plain hidle.2 []) hfirst h fun last hlast => ?_
      refine ⟨by simp [Token.encloseParameters, ht, hparen, hlast], ?_⟩
      have hopens : Closer.paren.opens first = true := hparen
      exact nest_pair (Closer.step_of_opens hopens) (Closer.step_of_matches hlast)
    · obtain ⟨-, rfl⟩ := Prod.mk.inj (Except.ok.inj h)
      exact hopen.onto (bareParameters (hopen.formed hp) [])

/-- The word `def` and the signature behind it. -/
theorem signature (hword : p.next? = some (t, q)) (ht : t.kind = .blockStart)
    (hdef : t.text = "def") : Takes [] [] p [] (ConnectorAudit.signature t.line 0 q).2 := by
  obtain ⟨ts, hts⟩ := items_signature t.line 0 q
  have hpassed : PassedAsSignature t ts := ⟨q, _, _, rfl, hts⟩
  have hall := Progress.items_next? hword
  rw [hts, ← List.cons_append] at hall
  refine ⟨⟨t :: ts, _, hall, .signature ht hdef hpassed, ?_, by simp⟩, ?_⟩
  · have hidle : t.Idle := Token.idle_of_kind (by simp [ht])
    exact (nest_singleton [] t).trans (Bracket.step_of_plain hidle.2 [])
  · rw [Progress.left_eq_length, Progress.left_eq_length, hall]
    simp only [List.length_append, List.length_cons]
    omega

end Takes

/-! ## rules and loops -/

/-- The rule reads a tree. -/
def TakesTree (rule : Rule Tree) : Prop :=
  ∀ ⦃p tree q⦄, p.Formed → rule p = .ok (tree, q) → Takes [] [] p [tree] q

/-- The rule reads an entry. -/
def TakesEntry (rule : Rule Entry) : Prop :=
  ∀ ⦃p e q⦄, p.Formed → rule p = .ok (e, q) → Takes [] [] p [e.tree] q

/-- The bracket that stands open where entries are read. -/
def awaited (c : Option Closer) : List Bracket := c.elim [] Closer.awaits

theorem Token.idle_of_separatesStatements {t : Token} (h : t.separatesStatements = true) :
    t.Idle := by
  simp only [separatesStatements, isSeparatorWord, Bool.or_eq_true, Bool.and_eq_true,
    beq_iff_eq] at h
  rcases h with ((h | h) | h) | ⟨h, -⟩
  · exact idle_of_isPunct h (by decide)
  · exact idle_of_isPunct h (by decide)
  · exact idle_of_isPunct h (by decide)
  · exact idle_of_kind (by simp [h])

theorem Token.idle_of_isBinary {t : Token} {ctx : Context} (h : t.isBinary ctx = true) :
    t.Idle := by
  unfold isBinary at h
  split at h
  · next hkind =>
    have hpunct : t.isPunct t.text = true := by simp [isPunct, hkind]
    refine idle_of_isPunct hpunct fun hmem => ?_
    simp only [List.mem_cons, List.not_mem_nil, or_false] at hmem
    rcases hmem with h' | h' | h' | h' <;> simp [h', joinsNothing] at h
  · next hkind => exact idle_of_kind (by simp [hkind])
  · cases h

namespace TakesTree

variable {rule : Rule Tree} {p q start : Progress} {done trees : List Tree}

/-- Statements follow each other, up to the end of the tokens if nothing closes them. -/
theorem statementLoop (hrule : TakesTree rule) {c : Closer} (hp : p.Formed)
    (hdone : Spends [] [] start done.reverse p)
    (h : Level.statementLoop rule c done p = .ok (trees, q)) :
    Spends [] [] start trees q ∧ (c = .eof → q.feed.items = []) := by
  fun_induction Level.statementLoop rule c done p with
  | case1 done p hnone =>
    obtain ⟨rfl, rfl⟩ := Prod.mk.inj (Except.ok.inj h)
    exact ⟨hdone, fun _ => Progress.items_of_next?_none hnone⟩
  | case2 => cases h
  | case3 done p t r hnext _ hc =>
    obtain ⟨rfl, rfl⟩ := Prod.mk.inj (Except.ok.inj h)
    refine ⟨hdone, ?_⟩
    rintro rfl
    cases hc
  | case4 => cases h
  | case5 done p t r hnext _ _ _ hseparates ih =>
    have hr := (Takes.idle hp hnext (Token.idle_of_separatesStatements hseparates) []).spends
    exact ih (hr.formed hp) (hdone.onto hr) h
  | case6 => cases h
  | case7 done p t r hnext _ _ _ _ tree r' hread _ ih =>
    have htree := (hrule hp hread).spends
    refine ih (htree.formed hp) ?_ h
    rw [List.reverse_cons]
    exact hdone.trans htree
  | case8 done p t r hnext _ _ _ _ tree r' hread hstuck =>
    exact absurd (hrule hp hread).left_lt hstuck

/-- Operands follow each other, with operators in between. -/
theorem operandLoop (hrule : TakesTree rule) {ctx : Context} (hp : p.Formed)
    (hdone : Spends [] [] start done.reverse p)
    (h : Level.operandLoop rule ctx done p = .ok (trees, q)) : Spends [] [] start trees q := by
  -- an operator that is read on is no bracket
  have hoperator : ∀ {t : Token}, ¬(t.gap.newline || !t.isBinary ctx) = true → t.Idle := by
    intro t ht
    simp only [Bool.or_eq_true, Bool.not_eq_true', not_or, Bool.not_eq_false] at ht
    exact Token.idle_of_isBinary ht.2
  fun_induction Level.operandLoop rule ctx done p with
  | case1 =>
    obtain ⟨rfl, rfl⟩ := Prod.mk.inj (Except.ok.inj h)
    exact hdone
  | case2 =>
    obtain ⟨rfl, rfl⟩ := Prod.mk.inj (Except.ok.inj h)
    exact hdone
  | case3 done p t r hnext ht =>
    obtain ⟨rfl, rfl⟩ := Prod.mk.inj (Except.ok.inj h)
    exact hdone.onto (Takes.idle hp hnext (hoperator ht) []).spends
  | case4 => cases h
  | case5 done p t r hnext ht _ tree r' hread _ ih =>
    have hr := (Takes.idle hp hnext (hoperator ht) []).spends
    have htree := (hrule (hr.formed hp) hread).spends
    refine ih (htree.formed (hr.formed hp)) ?_ h
    rw [List.reverse_cons]
    exact (hdone.onto hr).trans htree
  | case6 done p t r hnext ht _ tree r' hread hstuck =>
    have hr := (Takes.idle hp hnext (hoperator ht) []).spends
    have htree := hrule (hr.formed hp) hread
    exact absurd (Nat.lt_of_lt_of_le htree.left_lt hr.left_le) hstuck

end TakesTree

namespace Spends

variable {p q : Progress} {c : Option Closer}

/-- The end of entries closes what they wait for. -/
theorem entriesEnd? (hp : p.Formed) (h : Level.entriesEnd? c p = .ok (some q)) :
    Spends (awaited c) [] p [] q := by
  unfold Level.entriesEnd? at h
  split at h
  · cases h
  · next c t r hnext =>
    split at h
    · next hc =>
      obtain rfl := Option.some.inj (Except.ok.inj h)
      exact (Takes.closer hp hnext hc).spends
    · split at h <;> cases h
  · obtain rfl := Option.some.inj (Except.ok.inj h)
    exact refl [] p
  · split at h
    · obtain rfl := Option.some.inj (Except.ok.inj h)
      exact refl [] p
    · cases h

/-- Where a closer is awaited, another entry may always come. -/
theorem afterEntry (hp : p.Formed) {more : Bool} (h : Level.afterEntry c p = .ok (more, q)) :
    Spends [] [] p [] q ∧ (more = false → c = none) := by
  unfold Level.afterEntry at h
  split at h
  · obtain ⟨rfl, rfl⟩ := Prod.mk.inj (Except.ok.inj h)
    exact ⟨refl [] p, fun _ => rfl⟩
  · obtain ⟨rfl, rfl⟩ := Prod.mk.inj (Except.ok.inj h)
    exact ⟨refl [] p, fun hmore => by cases hmore⟩
  · next t r hnext =>
    split at h
    · next hcomma =>
      obtain ⟨rfl, rfl⟩ := Prod.mk.inj (Except.ok.inj h)
      exact ⟨(Takes.idle hp hnext (Token.idle_of_isPunct hcomma (by decide)) []).spends,
        fun _ => rfl⟩
    · obtain ⟨rfl, rfl⟩ := Prod.mk.inj (Except.ok.inj h)
      exact ⟨refl [] p, fun _ => rfl⟩
  · next c t r hnext =>
    split at h
    · next hcomma =>
      obtain ⟨rfl, rfl⟩ := Prod.mk.inj (Except.ok.inj h)
      exact ⟨(Takes.idle hp hnext (Token.idle_of_isPunct hcomma (by decide)) []).spends,
        fun hmore => by cases hmore⟩
    · split at h
      · obtain ⟨rfl, rfl⟩ := Prod.mk.inj (Except.ok.inj h)
        exact ⟨refl [] p, fun hmore => by cases hmore⟩
      · split at h
        · cases h
        · obtain ⟨rfl, rfl⟩ := Prod.mk.inj (Except.ok.inj h)
          exact ⟨(refl [] p).congr_right rfl, fun hmore => by cases hmore⟩

end Spends

namespace TakesEntry

variable {rule : Rule Entry} {p q start : Progress}

/-- Entries follow each other, up to what closes them. -/
theorem entryLoop (hrule : TakesEntry rule) {c : Option Closer} {done entries : List Entry}
    (hp : p.Formed)
    (hdone : Spends (awaited c) (awaited c) start (done.reverse.map Entry.tree) p)
    (h : Level.entryLoop rule c done p = .ok (entries, q)) :
    Spends (awaited c) [] start (entries.map Entry.tree) q := by
  have hconcat : ∀ {e : Entry} {done : List Entry} {p r s : Progress}, Takes [] [] p [e.tree] r →
      Spends [] [] r [] s →
        Spends (awaited c) (awaited c) start (done.reverse.map Entry.tree) p →
          Spends (awaited c) (awaited c) start ((e :: done).reverse.map Entry.tree) s := by
    intro e done p r s he hr hdone
    rw [List.reverse_cons, List.map_append]
    exact hdone.trans (by simpa using (he.spends.onto hr).frame (awaited c))
  fun_induction Level.entryLoop rule c done p with
  | case1 => cases h
  | case2 done p r hend =>
    obtain ⟨rfl, rfl⟩ := Prod.mk.inj (Except.ok.inj h)
    exact hdone.onto (.entriesEnd? hp hend)
  | case3 => cases h
  | case4 => cases h
  | case5 done p _ e r hread more s hafter _ ih =>
    have he := hrule hp hread
    have hr := he.spends.formed hp
    obtain ⟨hs, -⟩ := Spends.afterEntry hr hafter
    exact ih (hs.formed hr) (hconcat he hs hdone) h
  | case6 done p _ e r hread more s hafter hstuck =>
    have he := hrule hp hread
    obtain ⟨hs, hmore⟩ := Spends.afterEntry (he.spends.formed hp) hafter
    have hlt : s.left < p.left := Nat.lt_of_le_of_lt hs.left_le he.left_lt
    have hnone : c = none := hmore (by simpa [hlt] using hstuck)
    obtain ⟨rfl, rfl⟩ := Prod.mk.inj (Except.ok.inj h)
    have hall := hconcat he hs hdone
    rw [hnone] at hall ⊢
    exact hall

/-- Labelled entries follow each other; there is at least one. -/
theorem labelLoop (hrule : TakesEntry rule) {done trees : List Tree} (hp : p.Formed)
    (hdone : Spends [] [] start done.reverse p)
    (h : Level.labelLoop rule done p = .ok (trees, q)) : Takes [] [] start trees q := by
  fun_induction Level.labelLoop rule done p with
  | case1 => cases h
  | case2 done p e r hread _ hmore ih =>
    have he := (hrule hp hread).spends
    have hcomma : r.peek?.any (·.isPunct ",") = true :=
      (Bool.and_eq_true_iff.1 (Bool.and_eq_true_iff.1 hmore).1).1
    obtain ⟨t, hnext, ht⟩ := Progress.next?_of_peek? hcomma
    have hcomma := Token.idle_of_isPunct ht (by decide)
    have hskip := (Takes.idle (he.formed hp) hnext hcomma []).spends
    refine ih (hskip.formed (he.formed hp)) ?_ h
    rw [List.reverse_cons]
    exact (hdone.trans he).onto hskip
  | case3 done p e r hread =>
    have he := hrule hp hread
    obtain ⟨rfl, rfl⟩ := Prod.mk.inj (Except.ok.inj h)
    rw [List.reverse_cons]
    exact ⟨hdone.trans he.spends, Nat.lt_of_lt_of_le he.left_lt hdone.left_le⟩

end TakesEntry

end ConnectorAudit
