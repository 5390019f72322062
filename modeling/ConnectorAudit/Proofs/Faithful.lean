import ConnectorAudit.Proofs.Parses
import ConnectorAudit.Proofs.Spending

/-!
# Faithful parses

A parse spends all tokens of a source.  There is one lemma for every rule of the
grammar, and each takes the level below to be faithful.

* `Level.Faithful.above`: a level is faithful if the one below it is;
* `Parsed.reading_ofSource`: the tokens of a source can be read so that the brackets among those
  kept are balanced, and the tree holds the commands of the reading.
-/

namespace ConnectorAudit

/-- The rules of a level spend what they read. -/
structure Level.Faithful (l : Level) : Prop where
  /-- The level is one that sources are parsed at. -/
  reached : ∃ n, l = Level.levelAt n
  statements : ∀ {c p trees q}, p.Formed → l.statements c p = .ok (trees, q) →
    Spends [] [] p trees q ∧ (c = .eof → q.feed.items = [])
  entries : ∀ {c p es q}, p.Formed → l.entries c p = .ok (es, q) →
    Spends (awaited c) [] p (es.map Entry.tree) q
  entry : ∀ inCommand, TakesEntry (l.entry inCommand)
  expression : ∀ ctx, TakesTree (l.expression ctx)
  operand : ∀ ctx, TakesTree (l.operand ctx)

/-- From `p` to `q` stand `lambda` or `proc` and arguments. -/
def HeadsCallable (p q : Progress) : Prop :=
  ∃ word r n trees, p.next? = some (word, r) ∧
    (word.isName "lambda" = true ∨ word.isName "proc" = true) ∧
    Level.arguments? (Level.levelAt n) r = .ok (some trees, q) ∧ Spends [] [] r trees q

/-- A tree was read to which more may cling.  Only the arguments of `lambda` and `proc` are lost
when a block makes a callable of it. -/
structure Bears (p : Progress) (tree : Tree) (q : Progress) : Prop where
  takes : Takes [] [] p [tree] q
  named : ∀ {name}, tree.kind = .identifier name → Tree.commandSpans [tree] = []
  callable : Level.acceptsBlock tree = true → Level.makesCallable tree = true →
    Tree.commandSpans [tree] = [] ∨ HeadsCallable p q

namespace Bears

variable {p q : Progress} {tree : Tree}

/-- Without commands there is nothing more to account for. -/
theorem of_commandless (h : Takes [] [] p [tree] q) (hnone : Tree.commandSpans [tree] = []) :
    Bears p tree q :=
  ⟨h, fun _ => hnone, fun _ _ => .inl hnone⟩

/-- A leaf that is no command accounts for tokens without one. -/
theorem leaf (h : Takes [] [] p [] q) {kind : Tree.Kind} (hkind : kind ≠ .literal .command)
    (span : Span) : Bears p (.leaf kind span) q :=
  of_commandless (h.node hkind span) (Tree.commandSpans_node hkind span [])

/-- A tree that takes no block. -/
theorem of_takes (h : Takes [] [] p [tree] q) (hblock : Level.acceptsBlock tree = false) :
    Bears p tree q where
  takes := h
  named hkind := by simp [Level.acceptsBlock, hkind] at hblock
  callable haccepts := by simp [hblock] at haccepts

/-- A call on the tree, with the arguments behind it. -/
theorem call {start : Progress} {args : List Tree} (htree : Bears start tree p)
    (hargs : Spends [] [] p args q) (name : String) (span : Span) :
    Bears start (.ofCall name (some tree) args none span) q where
  takes := by
    refine (htree.takes.trans hargs).congr ?_
    rw [Tree.commandSpans_ofCall, Tree.commandSpans_append]
    simp
  named hkind := by cases hkind
  callable _ hcallable := by
    -- only `Proc.new` without arguments
    cases args with
    | nil =>
      have hproc : tree.kind = .identifier "Proc" := by
        simp only [Level.makesCallable, Tree.ofCall, Tree.receiver?] at hcallable
        simpa using (Bool.and_eq_true_iff.1 hcallable).2
      left
      rw [Tree.commandSpans_ofCall]
      simpa using htree.named hproc
    | cons arg args => cases hcallable

end Bears

/-- Behind the arguments of `lambda` and `proc`, a block is all that is left. -/
theorem HeadsCallable.takes {start p q r : Progress} {t : Token} {body : List Tree}
    (h : HeadsCallable start p) (hnext : p.next? = some (t, q)) (ht : t.opensBlock = true)
    (hbody : Takes [] [] p body r) : Takes [] [] start body r := by
  obtain ⟨word, s, n, trees, hword, hname, hargs, args, sargs, hitems, hreads, hnest, -⟩ := h
  obtain ⟨⟨xs, sbody, hitems', hreads', hnest', hspans⟩, hlt⟩ := hbody
  have hopener : ∃ block, xs = t :: block := by
    cases xs with
    | nil =>
      rw [Progress.left_eq_length, Progress.left_eq_length, hitems'] at hlt
      exact absurd hlt (Nat.lt_irrefl _)
    | cons u block =>
      rw [Progress.items_next? hnext, List.cons_append] at hitems'
      exact ⟨block, by rw [(List.cons.inj hitems').1]⟩
  obtain ⟨block, rfl⟩ := hopener
  have hread : ReadAsArguments args (t :: block) :=
    ⟨n, s, p, trees, hargs, hitems, r.feed.items, hitems'.symm⟩
  have hall : start.feed.items = word :: (args ++ t :: block) ++ r.feed.items := by
    simp [Progress.items_next? hword, hitems, hitems']
  refine ⟨⟨_, _, hall, .head hname hread ht hreads hreads', ?_, hspans⟩, ?_⟩
  · have hkind : word.kind = .identifier := hname.elim Token.kind_of_isName Token.kind_of_isName
    have hidle : word.Idle := Token.idle_of_kind (by simp [hkind])
    rw [nest_cons, Bracket.step_of_plain hidle.2]
    change nest [] (sargs.kept ++ sbody.kept) = some []
    rw [nest_append, hnest]
    exact hnest'
  · rw [Progress.left_eq_length, Progress.left_eq_length, hall]
    simp only [List.length_append, List.length_cons]
    omega

namespace Level.Faithful

variable {below : Level} {p q r : Progress} {t : Token} {tree result : Tree} {trees : List Tree}

/-! ## literals -/

/-- The code inside of a literal is read to its end. -/
theorem interpolated (hb : below.Faithful) (ht : t.Formed) {notes notes' : List String}
    (h : Level.interpolated below t notes = .ok (trees, notes')) :
    ∃ inner, Reading (Token.significant t.nested) inner ∧
      inner.commands.map Token.span = Tree.commandSpans trees := by
  unfold Level.interpolated at h
  split at h
  · next hempty =>
    obtain ⟨rfl, -⟩ := Prod.mk.inj (Except.ok.inj h)
    rw [List.isEmpty_iff.1 hempty]
    exact ⟨{}, .nil, rfl⟩
  · split at h
    · cases h
    · next inner hread =>
      obtain ⟨rfl, -⟩ := Prod.mk.inj (Except.ok.inj h)
      have hformed : (Progress.ofTokens t.nested t.span).Formed :=
        fun u hu => ht.of_mem_nested (List.mem_of_mem_filter hu)
      obtain ⟨⟨xs, s, hitems, hxs, -, hspans⟩, hend⟩ := hb.statements hformed hread
      have hall : Token.significant t.nested = xs := by
        rw [hend rfl, List.append_nil] at hitems
        exact hitems
      exact ⟨s, hall ▸ hxs, hspans⟩

/-- One literal token, with the code inside of it. -/
theorem literalToken (hb : below.Faithful) (hp : p.Formed) (hnext : p.next? = some (t, q))
    (hplain : t.isPlain = true) {notes notes' : List String} {us : List Tree}
    (h : Level.interpolated below t notes = .ok (trees, notes'))
    (hus : Tree.commandSpans us = t.command?.map Token.span ++ Tree.commandSpans trees) :
    Takes [] [] p us q := by
  obtain ⟨inner, hinner, hspans⟩ := hb.interpolated (hp.head hnext) h
  refine ⟨⟨[t], _, Progress.items_next? hnext, .token hinner, ?_, ?_⟩, ?_⟩
  · exact (nest_singleton [] t).trans (Bracket.step_of_plain hplain [])
  · rw [List.map_append, hspans, hus]
  · rw [Progress.left_next? hnext]
    exact Nat.lt_succ_self _

theorem isPlain_string (ht : t.kind = .string) : t.isPlain = true :=
  Token.isPlain_of_kind (by simp [ht]) (by simp [ht]) (by simp [ht])

/-- Strings that follow each other on a line. -/
theorem stringLoop (hb : below.Faithful) {start : Progress} {literal : Literal} {span : Span}
    (hliteral : literal ≠ .command) (hp : p.Formed) (hdone : Takes [] [] start trees p)
    (h : Level.stringLoop below literal span trees p = .ok (result, q)) : Bears start result q := by
  have hnode : ∀ {literal : Literal} {span : Span} {trees : List Tree} {p : Progress},
      literal ≠ .command → Takes [] [] start trees p →
        Bears start ⟨.literal literal, span, trees⟩ p := by
    intro literal span trees p hliteral hdone
    exact .of_takes (hdone.node (by simpa using hliteral) span) rfl
  fun_induction Level.stringLoop below literal span trees p with
  | case1 =>
    obtain ⟨rfl, rfl⟩ := Prod.mk.inj (Except.ok.inj h)
    exact hnode hliteral hdone
  | case2 => cases h
  | case3 literal span trees p t r hnext _ hstring more notes hread _ ih =>
    have hus : Tree.commandSpans more = t.command?.map Token.span ++ Tree.commandSpans more := by
      simp [Token.command?, hstring.1]
    have hr := hb.literalToken hp hnext (isPlain_string hstring.1) hread hus
    have hjoined : Level.joinLiteral literal t ≠ .command := by
      unfold Level.joinLiteral
      split <;> simp
    exact ih hjoined (hr.formed hp) ((hdone.trans hr.spends).congr_right rfl) h
  | case4 =>
    obtain ⟨rfl, rfl⟩ := Prod.mk.inj (Except.ok.inj h)
    exact hnode hliteral hdone

/-- A literal is a command if its token is one. -/
theorem literalOf_eq_command_iff : Level.literalOf t = .command ↔ t.kind = .command := by
  unfold Level.literalOf
  split <;> simp_all

/-- A literal accounts for the commands of its tokens. -/
theorem literal (hb : below.Faithful) (hp : p.Formed) (hnext : p.next? = some (t, q))
    (ht : t.kind ∈ [.string, .symbol, .command, .regex, .words, .numeral])
    (h : Level.literal below t q = .ok (result, r)) : Bears p result r := by
  have hplain : t.isPlain = true := by
    refine Token.isPlain_of_kind ?_ ?_ ?_ <;> intro hkind <;> simp [hkind] at ht
  unfold Level.literal at h
  obtain ⟨⟨children, notes⟩, hread, h⟩ := bind_eq_ok h
  simp only at h
  split at h
  · next hstring =>
    have hus : Tree.commandSpans children =
        t.command?.map Token.span ++ Tree.commandSpans children := by
      simp [Token.command?, hstring]
    have hq := hb.literalToken hp hnext hplain hread hus
    have hliteral : Level.literalOf t ≠ .command := by
      simp [literalOf_eq_command_iff, hstring]
    have hp' : ({ q with notes } : Progress).Formed := hq.formed hp
    exact hb.stringLoop hliteral hp' (hq.congr_right rfl) h
  · obtain ⟨rfl, rfl⟩ := Prod.mk.inj (Except.ok.inj h)
    refine .of_takes ((hb.literalToken hp hnext hplain hread ?_).congr_right rfl) rfl
    by_cases hcommand : t.kind = .command
    · rw [literalOf_eq_command_iff.2 hcommand, Tree.commandSpans_command]
      simp [Token.command?, hcommand]
    · rw [Tree.commandSpans_node (by simpa [literalOf_eq_command_iff] using hcommand)]
      simp [Token.command?, hcommand]

/-! ## bodies and arguments -/

/-- A block, from its opener on. -/
theorem blockRest (hb : below.Faithful) (hp : p.Formed) (hnext : p.next? = some (t, q))
    (ht : t.opensBlock = true) {params : List String}
    (h : Level.blockRest below t.blockCloser q = .ok (params, trees, r)) :
    Takes [] [] p trees r := by
  unfold Level.blockRest at h
  obtain ⟨⟨names, p₁⟩, hparams, h⟩ := bind_eq_ok h
  obtain ⟨⟨body, p₂⟩, hbody, h⟩ := bind_eq_ok h
  obtain ⟨p₃, hclose, h⟩ := bind_eq_ok h
  have h₁ := Takes.blockParameters hp hnext ht hparams
  obtain ⟨h₂, -⟩ := hb.statements (h₁.formed hp) hbody
  simp only [pure, Except.pure, Except.ok.injEq, Prod.mk.injEq] at h
  obtain ⟨-, rfl, rfl⟩ := h
  exact h₁.into (.expect (h₁.formed hp) h₂ hclose)

/-- Entries between brackets. -/
theorem entries_opened (hb : below.Faithful) (hp : p.Formed) {c : Closer} {es : List Entry}
    (hnext : p.next? = some (t, q)) (hc : c.opens t = true)
    (h : below.entries (some c) q = .ok (es, r)) : Takes [] [] p (es.map Entry.tree) r := by
  have hopen := Takes.opener hp hnext hc
  exact hopen.into (hb.entries (hopen.formed hp) h)

/-- Arguments account for the commands of their tokens. -/
theorem arguments? (hb : below.Faithful) (hp : p.Formed) {args : Option (List Tree)}
    (h : Level.arguments? below p = .ok (args, q)) : Spends [] [] p (args.getD []) q := by
  unfold Level.arguments? at h
  split at h
  · next hpeek =>
    obtain ⟨⟨entries, p₁⟩, hentries, h⟩ := bind_eq_ok h
    obtain ⟨u, hnext, hu⟩ := Progress.next?_of_peek? hpeek
    have hparen : Closer.paren.opens u = true := (Bool.and_eq_true_iff.1 hu).1
    have hall := hb.entries_opened hp hnext hparen hentries
    obtain ⟨rfl, rfl⟩ := Prod.mk.inj (Except.ok.inj h)
    exact hall.spends.congr (Tree.commandSpans_collectArguments [] entries)
  · split at h
    · obtain ⟨⟨entries, p₁⟩, hentries, h⟩ := bind_eq_ok h
      obtain ⟨rfl, rfl⟩ := Prod.mk.inj (Except.ok.inj h)
      exact (hb.entries hp hentries).congr (Tree.commandSpans_collectArguments [] entries)
    · obtain ⟨rfl, rfl⟩ := Prod.mk.inj (Except.ok.inj h)
      exact .refl [] p

/-! ## what clings to an operand -/

/-- A block takes nothing from the node it is attached to, unless it makes a callable of it. -/
theorem commandSpans_withBlock
    (hnamed : ∀ {name}, tree.kind = .identifier name → Tree.commandSpans [tree] = [])
    (hcallable : Level.makesCallable tree = false) (params : List String) (body : List Tree)
    (blockSpan span : Span) :
    Tree.commandSpans [Level.withBlock tree params body blockSpan span] =
      Tree.commandSpans ([tree] ++ body) := by
  have hblock : Tree.commandSpans [⟨.block params, blockSpan, body⟩] = Tree.commandSpans body :=
    Tree.commandSpans_node (by simp) blockSpan body
  rw [Level.withBlock, if_neg (by simp [hcallable]), Tree.commandSpans_append]
  simp only
  split
  · next hkind =>
    rw [Tree.commandSpans_node (by simp), Tree.commandSpans_append, hblock,
      Tree.commandSpans_children (by simp [hkind])]
  · next hkind => simp [hnamed hkind, hblock]
  · rw [Tree.commandSpans_node (by simp), Tree.commandSpans_cons, hblock]

/-- A call takes no second block. -/
theorem acceptsBlock_withBlock (tree : Tree) (params : List String) (body : List Tree)
    (blockSpan span : Span) :
    Level.acceptsBlock (Level.withBlock tree params body blockSpan span) = false := by
  unfold Level.withBlock
  split
  · rfl
  · simp only
    split <;> rfl

/-- A block that is attached accounts for its own commands, on top of those of the call. -/
theorem attachBlock (hb : below.Faithful) {start : Progress} (htree : Bears start tree p)
    (hp : p.Formed) (hnext : p.next? = some (t, q)) (ht : t.opensBlock = true)
    (haccepts : Level.acceptsBlock tree = true)
    (h : Level.attachBlock below tree t q = .ok (result, r)) : Bears start result r := by
  unfold Level.attachBlock at h
  obtain ⟨⟨params, body, p₁⟩, hrest, h⟩ := bind_eq_ok h
  have hbody := hb.blockRest hp hnext ht hrest
  obtain ⟨rfl, rfl⟩ := Prod.mk.inj (Except.ok.inj h)
  refine .of_takes ?_ (acceptsBlock_withBlock ..)
  by_cases hcallable : Level.makesCallable tree = true
  · rw [Level.withBlock, if_pos hcallable]
    refine Takes.node ?_ (by simp) _
    rcases htree.callable haccepts hcallable with hnone | hhead
    · refine (htree.takes.trans hbody.spends).congr ?_
      rw [Tree.commandSpans_append, hnone, List.nil_append]
    · exact hhead.takes hnext ht hbody
  · exact (htree.takes.trans hbody.spends).congr
      (commandSpans_withBlock htree.named (by simpa using hcallable) ..)

/-- A call operator and the name behind it. -/
theorem methodName (hp : p.Formed) (hnext : p.next? = some (t, q)) (ht : t.isCallOperator = true)
    {name : String} (h : Level.methodName q = .ok (name, r)) : Takes [] [] p [] r := by
  have hidle : t.Idle := by
    simp only [Token.isCallOperator, Bool.or_eq_true] at ht
    rcases ht with (ht | ht) | ht <;> exact Token.idle_of_isPunct ht (by decide)
  have hop := Takes.idle hp hnext hidle []
  have hq := hop.formed hp
  unfold Level.methodName at h
  split at h
  · cases h
  · next u s hnext' =>
    split at h
    · obtain ⟨-, rfl⟩ := Prod.mk.inj (Except.ok.inj h)
      exact hop
    · next hparen =>
      split at h
      · next hindex =>
        obtain ⟨hopen, hpeek⟩ := Bool.and_eq_true_iff.1 hindex
        obtain ⟨v, hnext'', hv⟩ := Progress.next?_of_peek? hpeek
        have hs := Takes.opener hq hnext' (show Closer.bracket.opens u = true from hopen)
        have hclose : Closer.bracket.matches v = true := (Bool.and_eq_true_iff.1 hv).1
        have hpair := hs.onto (Takes.closer (hs.formed hq) hnext'' hclose).spends
        have hbrackets := hop.onto hpair.spends
        simp only at h
        split at h
        · next hassign =>
          obtain ⟨-, rfl⟩ := Prod.mk.inj (Except.ok.inj h)
          obtain ⟨w, hnext''', hw⟩ := Progress.next?_of_peek? hassign
          have hidle : w.Idle := Token.idle_of_isPunct (Bool.and_eq_true_iff.1 hw).1 (by decide)
          exact hbrackets.onto (Takes.idle (hbrackets.formed hp) hnext''' hidle []).spends
        · obtain ⟨-, rfl⟩ := Prod.mk.inj (Except.ok.inj h)
          exact hbrackets
      · have hname : u.canName = true ∧
            (Except.ok (u.text, s) : Except ParseFailure (String × Progress)) = .ok (name, r) := by
          split at h
          · next hkind => exact ⟨by simp [Token.canName, hkind, hparen], h⟩
          · next hkind => exact ⟨by simp [Token.canName, hkind, hparen], h⟩
          · next hkind => exact ⟨by simp [Token.canName, hkind, hparen], h⟩
          · next hkind => exact ⟨by simp [Token.canName, hkind, hparen], h⟩
          · cases h
        obtain ⟨-, rfl⟩ := Prod.mk.inj (Except.ok.inj hname.2)
        have hitems : p.feed.items = [t, u] ++ s.feed.items := by
          rw [Progress.items_next? hnext, Progress.items_next? hnext']
          rfl
        refine ⟨⟨_, _, hitems, .name ht hname.1, ?_, by simp⟩, ?_⟩
        · exact (nest_singleton [] t).trans (Bracket.step_of_plain hidle.2 [])
        · rw [Progress.left_next? hnext, Progress.left_next? hnext']
          omega

/-- A call accounts for its own commands, on top of those of its receiver. -/
theorem methodCall (hb : below.Faithful) {start : Progress} (htree : Bears start tree p)
    (hp : p.Formed) (hnext : p.next? = some (t, q)) (ht : t.isCallOperator = true)
    (h : Level.methodCall below tree q = .ok (result, r)) : Bears start result r := by
  unfold Level.methodCall at h
  obtain ⟨⟨name, p₁⟩, hname, h⟩ := bind_eq_ok h
  obtain ⟨⟨args, p₂⟩, hargs, h⟩ := bind_eq_ok h
  have h₁ := methodName hp hnext ht hname
  have h₂ := hb.arguments? (h₁.formed hp) hargs
  obtain ⟨rfl, rfl⟩ := Prod.mk.inj (Except.ok.inj h)
  exact htree.call (h₁.spends.into h₂) name _

theorem qualified (hb : below.Faithful) {start : Progress} (htree : Bears start tree p)
    (hp : p.Formed) (hnext : p.next? = some (t, q)) (ht : t.isPunct "::" = true)
    (h : Level.qualified below tree q = .ok (result, r)) : Bears start result r := by
  have hcall : t.isCallOperator = true := by simp [Token.isCallOperator, ht]
  unfold Level.qualified at h
  split at h
  · next scope u s hkind hnext' =>
    split at h
    · next hname =>
      have hop := Takes.idle hp hnext (Token.idle_of_isPunct ht (by decide)) []
      have hs := Takes.idle (hop.formed hp) hnext' (Token.idle_of_kind (by simp [hname.1])) []
      obtain ⟨rfl, rfl⟩ := Prod.mk.inj (Except.ok.inj h)
      have hall := (htree.takes.onto hop.spends).onto hs.spends
      exact .leaf (hall.congr (htree.named hkind).symm) (by simp) _
    · exact hb.methodCall htree hp hnext hcall h
  · exact hb.methodCall htree hp hnext hcall h

/-- What clings to a tree accounts for its own commands, on top of those of the tree. -/
theorem cling? (hb : below.Faithful) {inCommand : Bool} {start : Progress} (hstart : start.Formed)
    (htree : Bears start tree p)
    (h : Level.cling? below inCommand tree p = .ok (some (result, q))) : Bears start result q := by
  have hp := htree.takes.formed hstart
  unfold Level.cling? at h
  split at h
  · cases h
  · next t r hnext =>
    simp only at h
    split at h
    · next hdot =>
      obtain ⟨⟨result', q'⟩, hcall, h⟩ := map_eq_ok h
      obtain ⟨rfl, rfl⟩ := Prod.mk.inj (Option.some.inj h)
      exact hb.methodCall htree hp hnext (by simp [Token.isCallOperator, hdot]) hcall
    · split at h
      · next hscope =>
        obtain ⟨⟨result', q'⟩, hcall, h⟩ := map_eq_ok h
        obtain ⟨rfl, rfl⟩ := Prod.mk.inj (Option.some.inj h)
        exact hb.qualified htree hp hnext (Bool.and_eq_true_iff.1 hscope).1 hcall
      · split at h
        · next hindex =>
          obtain ⟨⟨entries, p₁⟩, hentries, h⟩ := bind_eq_ok h
          have hopen : Closer.bracket.opens t = true := (Bool.and_eq_true_iff.1 hindex).1
          have hargs := hb.entries_opened hp hnext hopen hentries
          obtain ⟨rfl, rfl⟩ := Prod.mk.inj (Option.some.inj (Except.ok.inj h))
          exact htree.call
            (hargs.spends.congr (Tree.commandSpans_collectArguments [] entries)) "[]" _
        · split at h
          · next hblock =>
            obtain ⟨⟨result', q'⟩, hattach, h⟩ := map_eq_ok h
            obtain ⟨rfl, rfl⟩ := Prod.mk.inj (Option.some.inj h)
            obtain ⟨hopens, haccepts⟩ := Bool.and_eq_true_iff.1 hblock
            have ht : t.opensBlock = true := by
              simp only [Token.opensBlock, Bool.and_eq_true, Bool.or_eq_true] at hopens ⊢
              exact hopens.2.imp id And.left
            exact hb.attachBlock htree hp hnext ht haccepts hattach
          · cases h

/-- All that clings to a tree accounts for its commands, piece by piece. -/
theorem clinging (hb : below.Faithful) {inCommand : Bool} {start : Progress}
    (hstart : start.Formed) (htree : Bears start tree p)
    (h : Level.clinging below inCommand tree p = .ok (result, q)) : Bears start result q :=
  Level.clingLoop_keeps (fun htree hstep => hb.cling? hstart htree hstep) htree h

/-! ## operands -/

theorem parenthesised (hb : below.Faithful) (hp : p.Formed) (hnext : p.next? = some (t, q))
    (ht : t.isPunct "(" = true) (h : Level.parenthesised below t q = .ok (result, r)) :
    Bears p result r := by
  unfold Level.parenthesised at h
  obtain ⟨⟨body, p₁⟩, hbody, h⟩ := bind_eq_ok h
  obtain ⟨p₂, hclose, h⟩ := bind_eq_ok h
  have hopen := Takes.opener hp hnext (show Closer.paren.opens t = true from ht)
  obtain ⟨h₁, -⟩ := hb.statements (hopen.formed hp) hbody
  obtain ⟨rfl, rfl⟩ := Prod.mk.inj (Except.ok.inj h)
  exact .of_takes ((hopen.into (.expect (hopen.formed hp) h₁ hclose)).node (by simp) _) rfl

theorem array (hb : below.Faithful) (hp : p.Formed) (hnext : p.next? = some (t, q))
    (ht : t.isPunct "[" = true) (h : Level.array below t q = .ok (result, r)) :
    Bears p result r := by
  unfold Level.array at h
  obtain ⟨⟨entries, p₁⟩, hentries, h⟩ := bind_eq_ok h
  have hall := hb.entries_opened hp hnext (show Closer.bracket.opens t = true from ht) hentries
  obtain ⟨rfl, rfl⟩ := Prod.mk.inj (Except.ok.inj h)
  exact .of_takes
    ((hall.congr (Tree.commandSpans_collectArguments [] entries)).node (by simp) _) rfl

/-- A note uses no token. -/
theorem feed_noteKeyless (entries : List Entry) (p : Progress) :
    (Level.noteKeyless entries p).feed = p.feed := by
  unfold Level.noteKeyless
  induction entries generalizing p with
  | nil => rfl
  | cons e entries ih =>
    rw [List.foldl_cons, ih]
    split
    · rfl
    · split <;> rfl

/-- Braces account for the commands in them, be they a hash or a block. -/
theorem braced (hb : below.Faithful) (hp : p.Formed) (hnext : p.next? = some (t, q))
    (ht : t.kind = .braceOpen) (h : Level.braced below t q = .ok (result, r)) :
    Bears p result r := by
  unfold Level.braced at h
  split at h
  · obtain ⟨⟨params, body, p₁⟩, hbody, h⟩ := bind_eq_ok h
    have hcloser : t.blockCloser = .brace := by simp [Token.blockCloser, ht]
    have hall := hb.blockRest hp hnext (by simp [Token.opensBlock, ht]) (hcloser ▸ hbody)
    obtain ⟨rfl, rfl⟩ := Prod.mk.inj (Except.ok.inj h)
    exact .of_takes (hall.node (by simp) _) rfl
  · obtain ⟨⟨entries, p₁⟩, hentries, h⟩ := bind_eq_ok h
    have hbrace : Closer.brace.opens t = true := by simp [Closer.opens, ht]
    have hall := hb.entries_opened hp hnext hbrace hentries
    obtain ⟨rfl, rfl⟩ := Prod.mk.inj (Except.ok.inj h)
    exact .of_takes ((hall.node (by simp) _).congr_right (feed_noteKeyless entries p₁)) rfl

/-- The body behind a keyword accounts for its commands. -/
theorem keywordBody (hb : below.Faithful) {inCommand : Bool} (hp : p.Formed)
    (hnext : p.next? = some (t, q)) (ht : t.kind = .blockStart)
    (h : Level.keywordBody below inCommand t q = .ok (result, r)) : Bears p result r := by
  unfold Level.keywordBody at h
  split at h
  · next hdo =>
    obtain ⟨⟨params, body, p₁⟩, hbody, h⟩ := bind_eq_ok h
    have hcloser : t.blockCloser = .keyword := by simp [Token.blockCloser, ht]
    have hall := hb.blockRest hp hnext (by simp [Token.opensBlock, ht, hdo]) (hcloser ▸ hbody)
    obtain ⟨rfl, rfl⟩ := Prod.mk.inj (Except.ok.inj h)
    exact .of_takes (hall.node (by simp) _) rfl
  · have hhead : Takes [] [] p []
        (if t.text = "def" then signature t.line 0 q else (false, q)).2 := by
      split
      · next hdef => exact .signature hnext ht hdef
      · exact .idle hp hnext (Token.idle_of_kind (by simp [ht])) []
    generalize (if t.text = "def" then signature t.line 0 q else (false, q)) = head at h hhead
    obtain ⟨endless, p₁⟩ := head
    simp only at h hhead
    split at h
    · obtain ⟨⟨body, p₂⟩, hbody, h⟩ := bind_eq_ok h
      have h₂ := hb.expression _ (hhead.formed hp) hbody
      obtain ⟨rfl, rfl⟩ := Prod.mk.inj (Except.ok.inj h)
      exact .of_takes ((hhead.into h₂.spends).node (by simp) _) rfl
    · obtain ⟨⟨body, p₂⟩, hbody, h⟩ := bind_eq_ok h
      obtain ⟨p₃, hclose, h⟩ := bind_eq_ok h
      obtain ⟨h₂, -⟩ := hb.statements (hhead.formed hp) hbody
      obtain ⟨rfl, rfl⟩ := Prod.mk.inj (Except.ok.inj h)
      exact .of_takes ((hhead.into (.expect (hhead.formed hp) h₂ hclose)).node (by simp) _) rfl

/-- An arrow and its body account for their commands. -/
theorem arrowLambda (hb : below.Faithful) (hp : p.Formed) (hnext : p.next? = some (t, q))
    (ht : t.isPunct "->" = true) (h : Level.arrowLambda below t q = .ok (result, r)) :
    Bears p result r := by
  unfold Level.arrowLambda at h
  obtain ⟨⟨params, p₁⟩, hparams, h⟩ := bind_eq_ok h
  have h₁ := Takes.lambdaParameters hp hnext ht hparams
  simp only at h
  split at h
  · cases h
  · next opener p₂ hopener =>
    have hbody : opener.opensBlock = true → (do
        let rest ← Level.blockRest below opener.blockCloser p₂
        return (⟨.callable (params ++ rest.1), t.span.through rest.2.2.last, rest.2.1⟩, rest.2.2) :
          Except ParseFailure (Tree × Progress)) = .ok (result, r) → Bears p result r := by
      intro hopens h
      obtain ⟨⟨own, body, p₃⟩, hrest, h⟩ := bind_eq_ok h
      have h₂ := hb.blockRest (h₁.formed hp) hopener hopens hrest
      obtain ⟨rfl, rfl⟩ := Prod.mk.inj (Except.ok.inj h)
      exact .of_takes ((h₁.into h₂.spends).node (by simp) _) rfl
    split at h
    · next hbrace =>
      have hcloser : opener.blockCloser = .brace := by simp [Token.blockCloser, hbrace]
      exact hbody (by simp [Token.opensBlock, hbrace]) (hcloser ▸ h)
    · split at h
      · next hdo =>
        have hcloser : opener.blockCloser = .keyword := by simp [Token.blockCloser, hdo.1]
        exact hbody (by simp [Token.opensBlock, hdo]) (hcloser ▸ h)
      · cases h

/-- Labelled entries account for their commands. -/
theorem bareHash (hb : below.Faithful) {inCommand : Bool} (hp : p.Formed)
    (h : Level.bareHash below inCommand p = .ok (result, q)) : Bears p result q := by
  unfold Level.bareHash at h
  obtain ⟨⟨pairs, p₁⟩, hpairs, h⟩ := bind_eq_ok h
  have hall := (hb.entry inCommand).labelLoop hp (.refl [] p) hpairs
  simp only at h
  split at h
  · obtain ⟨rfl, rfl⟩ := Prod.mk.inj (Except.ok.inj h)
    exact .of_takes (hall.node (by simp) _) rfl
  · obtain ⟨rfl, rfl⟩ := Prod.mk.inj (Except.ok.inj h)
    exact .of_takes (hall.node (by simp) _) rfl

theorem unary (hb : below.Faithful) {ctx : Context} (hp : p.Formed)
    (hnext : p.next? = some (t, q)) (ht : t.Idle)
    (h : Level.unary below ctx t q = .ok (result, r)) : Takes [] [] p [result] r := by
  have hop := Takes.idle hp hnext ht []
  unfold Level.unary at h
  split at h
  · obtain ⟨⟨operand, p₁⟩, hoperand, h⟩ := bind_eq_ok h
    have h₁ := hb.operand ctx (hop.formed hp) hoperand
    obtain ⟨rfl, rfl⟩ := Prod.mk.inj (Except.ok.inj h)
    exact (hop.into h₁.spends).node (by simp) _
  · obtain ⟨rfl, rfl⟩ := Prod.mk.inj (Except.ok.inj h)
    exact (Bears.leaf hop (by simp) _).takes

theorem jump (hb : below.Faithful) {ctx : Context} (hp : p.Formed)
    (hnext : p.next? = some (t, q)) (ht : t.Idle)
    (h : Level.jump below ctx t q = .ok (result, r)) : Takes [] [] p [result] r := by
  have hword := Takes.idle hp hnext ht []
  have hleaf : Takes [] [] p [.leaf (.identifier t.text) t.span] q :=
    (Bears.leaf hword (by simp) t.span).takes
  unfold Level.jump at h
  simp only at h
  split at h
  · obtain ⟨⟨value, p₁⟩, hvalue, h⟩ := bind_eq_ok h
    have h₁ := hb.expression _ (hword.formed hp) hvalue
    obtain ⟨rfl, rfl⟩ := Prod.mk.inj (Except.ok.inj h)
    exact (hleaf.trans h₁.spends).node (by simp) _
  · obtain ⟨rfl, rfl⟩ := Prod.mk.inj (Except.ok.inj h)
    exact hleaf

/-- A name accounts for the commands of its arguments. -/
theorem named (hb : below.Faithful) (hp : p.Formed) (hnext : p.next? = some (t, q))
    (ht : t.kind = .identifier) (h : Level.named below t q = .ok (result, r)) :
    Bears p result r := by
  have hword := Takes.idle hp hnext (Token.idle_of_kind (by simp [ht])) []
  unfold Level.named at h
  obtain ⟨⟨args, p₁⟩, hargs, h⟩ := bind_eq_ok h
  have h₁ := hb.arguments? (hword.formed hp) hargs
  cases args with
  | some args =>
    obtain ⟨rfl, rfl⟩ := Prod.mk.inj (Except.ok.inj h)
    refine ⟨(hword.into h₁).congr (by simp), ?_, ?_⟩
    · intro name hkind
      cases hkind
    · intro _ hcallable
      obtain ⟨n, rfl⟩ := hb.reached
      refine .inr ⟨t, q, n, args, hnext, ?_, hargs, h₁⟩
      have htext : t.text = "lambda" ∨ t.text = "proc" := by
        simpa [Level.makesCallable, Tree.ofCall] using hcallable
      exact htext.imp (by simp [Token.isName, ht]) (by simp [Token.isName, ht])
  | none =>
    obtain ⟨rfl, rfl⟩ := Prod.mk.inj (Except.ok.inj h)
    exact .leaf (hword.onto h₁) (by simp) _

/-- An operand with all that clings to it. -/
theorem primary (hb : below.Faithful) {inCommand : Bool} (hp : p.Formed)
    {rule : Except ParseFailure (Tree × Progress)}
    (hrule : ∀ {tree q}, rule = .ok (tree, q) → Bears p tree q)
    (h : (do
      let (tree, q) ← rule
      Level.clinging below inCommand tree q) = .ok (result, r)) : Takes [] [] p [result] r := by
  obtain ⟨⟨tree, p₁⟩, hread, h⟩ := bind_eq_ok h
  exact (hb.clinging hp (hrule hread) h).takes

/-- A word accounts for the commands behind it, whatever the word means. -/
theorem word (hb : below.Faithful) {ctx : Context} (hp : p.Formed)
    (hnext : p.next? = some (t, q)) (ht : t.kind = .identifier)
    (h : Level.word below ctx t q = .ok (result, r)) : Takes [] [] p [result] r := by
  have hidle : t.Idle := Token.idle_of_kind (by simp [ht])
  have hword := Takes.idle hp hnext hidle []
  unfold Level.word at h
  simp only at h
  split at h
  · exact (hb.clinging hp (.leaf hword (by simp) _) h).takes
  · exact (hb.clinging hp (.leaf hword (by simp) _) h).takes
  · exact (hb.clinging hp (.leaf hword (by simp) _) h).takes
  · exact hb.jump hp hnext hidle h
  · exact hb.jump hp hnext hidle h
  · exact hb.jump hp hnext hidle h
  · exact hb.jump hp hnext hidle h
  · exact hb.primary hp (fun hread => hb.named hp hnext ht hread) h

/-- What a mark begins accounts for the commands behind the mark. -/
theorem punctuated (hb : below.Faithful) {ctx : Context} (hp : p.Formed)
    (hnext : p.next? = some (t, q)) (ht : t.kind = .punctuation) (hopen : t.isCloser = false)
    (h : Level.punctuated below ctx t q = .ok (result, r)) : Takes [] [] p [result] r := by
  have hpunct : ∀ {text : String}, t.text = text → t.isPunct text = true := by
    intro text htext
    simp [Token.isPunct, ht, htext]
  unfold Level.punctuated at h
  simp only at h
  split at h
  · next htext =>
    exact hb.primary hp (fun hread => hb.parenthesised hp hnext (hpunct htext) hread) h
  · next htext => exact hb.primary hp (fun hread => hb.array hp hnext (hpunct htext) hread) h
  · next htext => exact hb.primary hp (fun hread => hb.arrowLambda hp hnext (hpunct htext) hread) h
  · next hparen hsquare _ =>
    have hidle : t.Idle := by
      refine Token.idle_of_isPunct (hpunct rfl) fun hmem => ?_
      simp only [List.mem_cons, List.not_mem_nil, or_false] at hmem
      rcases hmem with htext | htext | htext | htext
      · exact hparen htext
      · simp [Token.isCloser, hpunct htext] at hopen
      · exact hsquare htext
      · simp [Token.isCloser, hpunct htext] at hopen
    split at h
    · exact hb.unary hp hnext hidle h
    · have hstray := (Takes.idle hp hnext hidle []).congr_right
        (r := q.noteToken t "skipped stray") rfl
      exact (hb.clinging hp (.leaf hstray (by simp) _) h).takes

/-! ## the five rules -/

/-- An operand accounts for the commands of its tokens. -/
theorem operandAbove (hb : below.Faithful) (ctx : Context) :
    TakesTree (Level.operandAbove below ctx) := by
  intro p tree q hp h
  unfold Level.operandAbove at h
  split at h
  · cases h
  · next t r hnext =>
    have hliteral : t.kind ∈ [.string, .symbol, .command, .regex, .words, .numeral] → (do
        let (tree, p) ← Level.literal below t r
        Level.clinging below ctx.inCommand tree p) = .ok (tree, q) → Takes [] [] p [tree] q :=
      fun ht h => hb.primary hp (fun hread => hb.literal hp hnext ht hread) h
    simp only at h
    split at h
    · cases h
    · next hopen =>
      have hstray : t.kind ∈ [.identifier, .label, .numeral, .blockStart, .blockEnd, .comment,
          .other] → Level.clinging below ctx.inCommand (.leaf (.identifier t.text) t.span) r =
            .ok (tree, q) → Takes [] [] p [tree] q :=
        fun ht h => (hb.clinging hp
          (.leaf (.idle hp hnext (Token.idle_of_kind ht) []) (by simp) _) h).takes
      split at h
      · next ht => exact hb.punctuated hp hnext ht (by simpa using hopen) h
      · next ht => exact hb.primary hp (fun hread => hb.braced hp hnext ht hread) h
      · next ht => exact hb.primary hp (fun hread => hb.keywordBody hp hnext ht hread) h
      · exact hb.primary hp (fun hread => hb.bareHash hp hread) h
      · next ht => exact hb.word hp hnext ht h
      · next ht => exact hliteral (by simp [ht]) h
      · next ht => exact hliteral (by simp [ht]) h
      · next ht => exact hliteral (by simp [ht]) h
      · next ht => exact hliteral (by simp [ht]) h
      · next ht => exact hliteral (by simp [ht]) h
      · next ht => exact hliteral (by simp [ht]) h
      · next ht => exact hstray (by simp [ht]) h
      · next ht => exact hstray (by simp [ht]) h
      · next ht => simp [Token.isCloser, ht] at hopen
      · next ht => simp [Token.isCloser, ht] at hopen

/-- An expression accounts for the commands of its tokens. -/
theorem expressionAbove (hb : below.Faithful) (ctx : Context) :
    TakesTree (Level.expressionAbove below ctx) := by
  intro p tree q hp h
  unfold Level.expressionAbove at h
  obtain ⟨⟨first, p₁⟩, hfirst, h⟩ := bind_eq_ok h
  obtain ⟨⟨rest, p₂⟩, hrest, h⟩ := bind_eq_ok h
  have h₁ := hb.operand ctx hp hfirst
  have h₂ := (hb.operand ctx).operandLoop (h₁.formed hp) (.refl [] p₁) hrest
  simp only at h
  split at h
  · next hempty =>
    obtain ⟨rfl, rfl⟩ := Prod.mk.inj (Except.ok.inj h)
    rw [List.isEmpty_iff.1 hempty] at h₂
    exact h₁.onto h₂
  · obtain ⟨rfl, rfl⟩ := Prod.mk.inj (Except.ok.inj h)
    exact (h₁.trans h₂).node (by simp) _

end Level.Faithful

/-- An entry accounts for the commands of its tokens. -/
theorem TakesEntry.entryAbove {below : Level}
    (hexpression : ∀ ctx, TakesTree (below.expression ctx)) (inCommand : Bool) :
    TakesEntry (Level.entryAbove below inCommand) := by
  intro p e q hp h
  unfold Level.entryAbove at h
  simp only at h
  split at h
  · cases h
  · next t r hnext =>
    split at h
    · next hlabel =>
      have hkey := Takes.idle hp hnext (Token.idle_of_kind (by simp [hlabel])) []
      have hleaf : ∀ kind, kind ≠ .literal .command → Tree.commandSpans [.leaf kind t.span] = [] :=
        fun kind hkind => Tree.commandSpans_node hkind t.span []
      split at h
      · obtain ⟨rfl, rfl⟩ := Prod.mk.inj (Except.ok.inj h)
        refine hkey.congr ?_
        simp [Entry.tree, hleaf]
      · obtain ⟨⟨value, p₁⟩, hvalue, h⟩ := bind_eq_ok h
        have h₁ := hexpression _ (hkey.formed hp) hvalue
        obtain ⟨rfl, rfl⟩ := Prod.mk.inj (Except.ok.inj h)
        refine (hkey.into h₁.spends).congr ?_
        simp [Entry.tree, hleaf]
    · obtain ⟨⟨first, p₁⟩, hfirst, h⟩ := bind_eq_ok h
      have h₁ := hexpression _ hp hfirst
      simp only at h
      split at h
      · next hpeek =>
        obtain ⟨⟨value, p₂⟩, hvalue, h⟩ := bind_eq_ok h
        obtain ⟨u, hnext', hu⟩ := Progress.next?_of_peek? hpeek
        have hrocket : u.Idle := Token.idle_of_isPunct hu (by decide)
        have hskip := h₁.onto (Takes.idle (h₁.formed hp) hnext' hrocket []).spends
        have h₂ := hexpression _ (hskip.formed hp) hvalue
        obtain ⟨rfl, rfl⟩ := Prod.mk.inj (Except.ok.inj h)
        refine (hskip.trans h₂.spends).congr ?_
        rw [Tree.commandSpans_append]
        exact Tree.commandSpans_ofPair first value
      · obtain ⟨rfl, rfl⟩ := Prod.mk.inj (Except.ok.inj h)
        exact h₁

namespace Level

/-- A level is faithful if the one below it is. -/
theorem Faithful.above {below : Level} (hb : below.Faithful) : below.above.Faithful where
  reached := by
    obtain ⟨n, rfl⟩ := hb.reached
    exact ⟨n + 1, rfl⟩
  statements {c p trees q} hp h := by
    have hstart : Spends [] [] p [].reverse p := .refl [] p
    exact (hb.expression _).statementLoop hp hstart h
  entries {c p es q} hp h := by
    have hstart : Spends (awaited c) (awaited c) p ([].reverse.map Entry.tree) p := .refl _ p
    exact (TakesEntry.entryAbove hb.expression _).entryLoop hp hstart h
  entry := .entryAbove hb.expression
  expression := hb.expressionAbove
  operand := hb.operandAbove

/-- All levels are faithful. -/
theorem faithful_levelAt (n : Nat) : (levelAt n).Faithful := by
  induction n with
  | zero =>
    -- an entry can still be read here, but none of its parts
    have hexpression : ∀ ctx, TakesTree (bottom.expression ctx) := by
      intro ctx p tree q hp h
      cases h
    exact
      { reached := ⟨0, rfl⟩
        statements := fun _ h => by cases h
        entries := fun _ h => by cases h
        entry := .entryAbove hexpression
        expression := hexpression
        operand := fun _ _ _ _ _ h => by cases h }
  | succ n ih => exact ih.above

end Level

/-! ## whole sources -/

/-- The commands of a program are those of its statements. -/
theorem Tree.commandSpans_ofStatements (statements : List Tree) :
    commandSpans [ofStatements statements] = commandSpans statements := by
  cases statements with
  | nil => exact commandSpans_node (by simp) _ _
  | cons first rest => exact commandSpans_node (by simp) _ _

/-- The tokens of a source can be read so that the brackets among those kept are balanced, and the
tree has the commands of the reading. -/
theorem Parsed.reading_ofTokens {tokens : List Token} {parsed : Parsed}
    (hformed : ∀ t ∈ tokens, t.Formed) (h : ofTokens tokens = .ok parsed) :
    ∃ s, Reading (Token.significant tokens) s ∧ Balanced s.kept ∧
      s.commands.map Token.span = Tree.commandSpans [parsed.tree] := by
  unfold ofTokens at h
  obtain ⟨⟨statements, p⟩, hread, h⟩ := bind_eq_ok h
  have hp : (Progress.ofTokens tokens {}).Formed :=
    fun t ht => hformed t (List.mem_of_mem_filter ht)
  obtain ⟨⟨xs, s, hitems, hxs, hnest, hspans⟩, hend⟩ :=
    (Level.faithful_levelAt _).statements hp hread
  have hall : Token.significant tokens = xs := by
    rw [hend rfl, List.append_nil] at hitems
    exact hitems
  obtain rfl := Except.ok.inj h
  exact ⟨s, hall ▸ hxs, hnest, hspans.trans (Tree.commandSpans_ofStatements statements).symm⟩

/-- What parses was scanned without fault, and its tokens can be read like that. -/
theorem Parsed.reading_ofSource {source : String} {parsed : Parsed}
    (h : ofSource source = .ok parsed) :
    ∃ tokens s, Token.scan source = .ok tokens ∧ (∀ t ∈ tokens, t.Formed) ∧
      Reading (Token.significant tokens) s ∧ Balanced s.kept ∧
      s.commands.map Token.span = Tree.commandSpans [parsed.tree] := by
  obtain ⟨tokens, hscan, hparse⟩ := ofSource_eq_ok h
  have hformed : ∀ t ∈ tokens, t.Formed := fun t ht => Token.formed_of_mem_scan hscan ht
  obtain ⟨s, hs⟩ := reading_ofTokens hformed hparse
  exact ⟨tokens, s, hscan, hformed, hs⟩

end ConnectorAudit
