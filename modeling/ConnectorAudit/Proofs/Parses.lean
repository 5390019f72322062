import ConnectorAudit.Proofs.Rules
import ConnectorAudit.Proofs.Scans
import ConnectorAudit.Proofs.Traversals

/-!
# Parses

The trees of a source are placed in it.  There is one lemma for every rule of
the grammar, and each takes the level below to be sound.

* `Level.Sound.above`: a level is sound if the one below it is;
* `Parsed.placed_tree`: the tree of a source is placed in it.
-/

namespace ConnectorAudit

namespace Level.Sound

variable {source : String} {below : Level} {lo hi : Nat} {p q r : Progress} {t : Token}
  {tree result : Tree} {trees : List Tree}

/-! ## literals -/

/-- The code inside a literal stays inside of it. -/
theorem interpolated (hb : below.Sound source) (ht : t.Placed source) {notes notes' : List String}
    (h : Level.interpolated below t notes = .ok (trees, notes')) :
    Tree.InRow source t.offset t.stop trees := by
  unfold Level.interpolated at h
  split at h
  · obtain ⟨rfl, -⟩ := Prod.mk.inj (Except.ok.inj h)
    exact .nil
  · split at h
    · cases h
    · next inner hread =>
      obtain ⟨rfl, -⟩ := Prod.mk.inj (Except.ok.inj h)
      have hfed : (Progress.ofTokens t.nested t.span).Fed source t.offset t.stop :=
        ⟨t.span.offset_le_stop, ht.laid_nested.sublist List.filter_sublist⟩
      exact (hb.statements hfed hread).row

/-- Strings that follow each other on a line. -/
theorem stringLoop (hb : below.Sound source) {literal : Literal} {span : Span}
    (hspan : span.StandsIn source) (hp : p.Ended source hi) (hstop : span.stop ≤ p.last.stop)
    (hrow : Tree.InRow source span.offset span.stop trees)
    (h : Level.stringLoop below literal span trees p = .ok (result, q)) :
    Yields source span.offset hi result q := by
  fun_induction Level.stringLoop below literal span trees p with
  | case1 =>
    obtain ⟨rfl, rfl⟩ := Prod.mk.inj (Except.ok.inj h)
    exact hp.node hspan hstop hrow
  | case2 => cases h
  | case3 literal span trees p t r hnext _ _ more notes hread _ ih =>
    obtain ⟨hlo, hr⟩ := hp.fed.next? hnext
    have hle : span.offset ≤ t.span.offset := by
      have := span.offset_le_stop
      exact Nat.le_trans this (Nat.le_trans hstop hlo)
    have hle' : span.offset ≤ t.span.stop := Nat.le_trans hle t.span.offset_le_stop
    have hthrough := Span.stop_through hle'
    refine ih (hspan.through hr.placed.standsIn_span hle') (hr.ended.congr rfl rfl) ?_ ?_ h
    · change (span.through t.span).stop ≤ r.last.stop
      exact Nat.le_of_eq (hthrough.trans (congrArg Span.stop hr.last.symm))
    · rw [hthrough, Span.offset_through]
      exact (hrow.mono (Nat.le_refl _) (Nat.le_trans hstop hlo)).append
        (hb.interpolated hr.placed hread) hle t.span.offset_le_stop
  | case4 =>
    obtain ⟨rfl, rfl⟩ := Prod.mk.inj (Except.ok.inj h)
    exact hp.node hspan hstop hrow

/-- A literal is placed behind its token. -/
theorem literal (hb : below.Sound source) (hp : p.Behind source hi t)
    (h : Level.literal below t p = .ok (result, q)) : Yields source t.offset hi result q := by
  unfold Level.literal at h
  obtain ⟨⟨children, notes⟩, hread, h⟩ := bind_eq_ok h
  have hrow := hb.interpolated hp.placed hread
  have hstop : t.span.stop ≤ p.last.stop := Nat.le_of_eq (hp.last ▸ rfl)
  have hp' : { p with notes }.Ended source hi := hp.ended.congr rfl rfl
  simp only at h
  split at h
  · exact hb.stringLoop hp.placed.standsIn_span hp' hstop hrow h
  · obtain ⟨rfl, rfl⟩ := Prod.mk.inj (Except.ok.inj h)
    exact hp'.node hp.placed.standsIn_span hstop hrow

/-! ## bodies and arguments -/

/-- The rest of a block is placed in order. -/
theorem blockRest (hb : below.Sound source) (hp : p.Ended source hi) {c : Closer}
    {params : List String} (h : Level.blockRest below c p = .ok (params, trees, q)) :
    Lists source hi p trees q := by
  unfold Level.blockRest at h
  obtain ⟨⟨names, p₁⟩, hparams, h⟩ := bind_eq_ok h
  obtain ⟨⟨body, p₂⟩, hbody, h⟩ := bind_eq_ok h
  obtain ⟨p₃, hclose, h⟩ := bind_eq_ok h
  have h₁ := hp.blockParameters hparams
  have h₂ := hb.statements_behind h₁.ended hbody
  have h₃ := h₂.onward.ended.expect hclose
  simp only [pure, Except.pure, Except.ok.injEq, Prod.mk.injEq] at h
  obtain ⟨-, rfl, rfl⟩ := h
  exact ((Lists.nil h₁).append h₂).onto h₃

/-- Arguments are placed in order. -/
theorem arguments? (hb : below.Sound source) (hp : p.Ended source hi) {args : Option (List Tree)}
    (h : Level.arguments? below p = .ok (args, q)) : Lists source hi p (args.getD []) q := by
  unfold Level.arguments? at h
  split at h
  · obtain ⟨⟨entries, p₁⟩, hentries, h⟩ := bind_eq_ok h
    have hskip := hp.skip
    have hargs := (hb.entries hskip.ended hentries).collectArguments
    obtain ⟨rfl, rfl⟩ := Prod.mk.inj (Except.ok.inj h)
    exact (Lists.nil hskip).append hargs
  · split at h
    · obtain ⟨⟨entries, p₁⟩, hentries, h⟩ := bind_eq_ok h
      obtain ⟨rfl, rfl⟩ := Prod.mk.inj (Except.ok.inj h)
      exact (hb.entries hp hentries).collectArguments
    · obtain ⟨rfl, rfl⟩ := Prod.mk.inj (Except.ok.inj h)
      exact .nil (.refl hp)

/-! ## what clings to an operand -/

/-- A block that is attached is placed behind the call. -/
theorem attachBlock (hb : below.Sound source) (htree : Yields source lo hi tree p)
    (hnext : p.next? = some (t, q)) (h : Level.attachBlock below tree t q = .ok (result, r)) :
    Yields source lo hi result r := by
  unfold Level.attachBlock at h
  obtain ⟨⟨params, body, p₁⟩, hrest, h⟩ := bind_eq_ok h
  obtain ⟨hlo, hq⟩ := htree.ended.fed.next? hnext
  have hbody := hb.blockRest hq.ended hrest
  have hle : t.span.offset ≤ q.last.stop := by
    rw [hq.last]
    exact t.span.offset_le_stop
  obtain ⟨rfl, rfl⟩ := Prod.mk.inj (Except.ok.inj h)
  refine ⟨hbody.onward.ended, ?_⟩
  exact htree.fits.withBlock hq.placed.standsIn_span hbody.onward.ended.last hlo
    (Nat.le_trans hle hbody.onward.le) (hbody.row.mono hle (Nat.le_refl _))

/-- A method's name is passed. -/
theorem methodName (hp : p.Ended source hi) {name : String}
    (h : Level.methodName p = .ok (name, q)) : p.Onward source hi q := by
  unfold Level.methodName at h
  split at h
  · cases h
  · next t r hnext =>
    have hr := hp.next? hnext
    split at h
    · obtain ⟨-, rfl⟩ := Prod.mk.inj (Except.ok.inj h)
      exact .refl hp
    · split at h
      · have hskip := hr.ended.skip
        simp only at h
        split at h
        · obtain ⟨-, rfl⟩ := Prod.mk.inj (Except.ok.inj h)
          exact (hr.trans hskip).trans hskip.ended.skip
        · obtain ⟨-, rfl⟩ := Prod.mk.inj (Except.ok.inj h)
          exact hr.trans hskip
      · have hname : (Except.ok (t.text, r) : Except ParseFailure (String × Progress)) =
            .ok (name, q) := by
          split at h
          · exact h
          · exact h
          · exact h
          · exact h
          · cases h
        obtain ⟨-, rfl⟩ := Prod.mk.inj (Except.ok.inj hname)
        exact hr

/-- A call is placed around its receiver and its arguments. -/
theorem methodCall (hb : below.Sound source) (htree : Yields source lo hi tree p)
    (h : Level.methodCall below tree p = .ok (result, q)) : Yields source lo hi result q := by
  unfold Level.methodCall at h
  obtain ⟨⟨name, p₁⟩, hname, h⟩ := bind_eq_ok h
  obtain ⟨⟨args, p₂⟩, hargs, h⟩ := bind_eq_ok h
  have h₁ := methodName htree.ended hname
  have h₂ := hb.arguments? h₁.ended hargs
  obtain ⟨rfl, rfl⟩ := Prod.mk.inj (Except.ok.inj h)
  exact (htree.onto h₁).call name h₂

theorem qualified (hb : below.Sound source) (htree : Yields source lo hi tree p)
    (h : Level.qualified below tree p = .ok (result, q)) : Yields source lo hi result q := by
  unfold Level.qualified at h
  split at h
  · next scope t r _ hnext =>
    split at h
    · have hr := htree.ended.next? hnext
      obtain ⟨rfl, rfl⟩ := Prod.mk.inj (Except.ok.inj h)
      have hspan := Nat.le_trans tree.span.offset_le_stop (Nat.le_trans htree.fits.stop_le hr.le)
      exact ⟨hr.ended, (Tree.Fits.through htree.fits.placed.standsIn hr.ended.last hspan
        .nil).mono htree.fits.le_offset (Nat.le_refl _)⟩
    · exact hb.methodCall htree h
  · exact hb.methodCall htree h

/-- What clings to a tree is placed around it. -/
theorem cling? (hb : below.Sound source) {inCommand : Bool} (htree : Yields source lo hi tree p)
    (h : Level.cling? below inCommand tree p = .ok (some (result, q))) :
    Yields source lo hi result q := by
  unfold Level.cling? at h
  split at h
  · cases h
  · next t r hnext =>
    have hr := htree.onto (htree.ended.next? hnext)
    simp only at h
    split at h
    · obtain ⟨⟨result', q'⟩, hcall, h⟩ := map_eq_ok h
      obtain ⟨rfl, rfl⟩ := Prod.mk.inj (Option.some.inj h)
      exact hb.methodCall hr hcall
    · split at h
      · obtain ⟨⟨result', q'⟩, hcall, h⟩ := map_eq_ok h
        obtain ⟨rfl, rfl⟩ := Prod.mk.inj (Option.some.inj h)
        exact hb.qualified hr hcall
      · split at h
        · obtain ⟨⟨entries, p₁⟩, hentries, h⟩ := bind_eq_ok h
          have hargs := (hb.entries hr.ended hentries).collectArguments
          obtain ⟨rfl, rfl⟩ := Prod.mk.inj (Option.some.inj (Except.ok.inj h))
          exact hr.call "[]" hargs
        · split at h
          · obtain ⟨⟨result', q'⟩, hblock, h⟩ := map_eq_ok h
            obtain ⟨rfl, rfl⟩ := Prod.mk.inj (Option.some.inj h)
            exact hb.attachBlock htree hnext hblock
          · cases h

/-- All that clings to a tree is placed around it, piece by piece. -/
theorem clinging (hb : below.Sound source) {inCommand : Bool} (htree : Yields source lo hi tree p)
    (h : Level.clinging below inCommand tree p = .ok (result, q)) :
    Yields source lo hi result q :=
  Level.clingLoop_keeps (fun htree hstep => hb.cling? htree hstep) htree h

/-! ## operands -/

/-- What is in parentheses is placed between them. -/
theorem parenthesised (hb : below.Sound source) (hp : p.Behind source hi t)
    (h : Level.parenthesised below t p = .ok (result, q)) : Yields source t.offset hi result q := by
  unfold Level.parenthesised at h
  obtain ⟨⟨body, p₁⟩, hbody, h⟩ := bind_eq_ok h
  obtain ⟨p₂, hclose, h⟩ := bind_eq_ok h
  have h₁ := hb.statements_behind hp.ended hbody
  obtain ⟨rfl, rfl⟩ := Prod.mk.inj (Except.ok.inj h)
  exact hp.node (h₁.onto (h₁.onward.ended.expect hclose))

theorem array (hb : below.Sound source) (hp : p.Behind source hi t)
    (h : Level.array below t p = .ok (result, q)) : Yields source t.offset hi result q := by
  unfold Level.array at h
  obtain ⟨⟨entries, p₁⟩, hentries, h⟩ := bind_eq_ok h
  obtain ⟨rfl, rfl⟩ := Prod.mk.inj (Except.ok.inj h)
  exact hp.node (hb.entries hp.ended hentries).collectArguments

/-- A note changes nothing about where a parse stands. -/
theorem onward_noteKeyless (hp : p.Ended source hi) (entries : List Entry) :
    p.Onward source hi (Level.noteKeyless entries p) := by
  unfold Level.noteKeyless
  induction entries generalizing p with
  | nil => exact .refl hp
  | cons e entries ih =>
    rw [List.foldl_cons]
    have hnote : ∀ text, p.Onward source hi (p.note text) :=
      fun text => ⟨hp.congr rfl rfl, Nat.le_refl _⟩
    cases e with
    | pair tree => exact ih hp
    | positional tree =>
      simp only
      split
      · exact ih hp
      · exact (hnote _).trans (ih (hnote _).ended)

/-- Braces are placed around what they hold. -/
theorem braced (hb : below.Sound source) (hp : p.Behind source hi t)
    (h : Level.braced below t p = .ok (result, q)) : Yields source t.offset hi result q := by
  unfold Level.braced at h
  split at h
  · obtain ⟨⟨params, body, p₁⟩, hbody, h⟩ := bind_eq_ok h
    obtain ⟨rfl, rfl⟩ := Prod.mk.inj (Except.ok.inj h)
    exact hp.node (hb.blockRest hp.ended hbody)
  · obtain ⟨⟨entries, p₁⟩, hentries, h⟩ := bind_eq_ok h
    have h₁ := hb.entries hp.ended hentries
    obtain ⟨rfl, rfl⟩ := Prod.mk.inj (Except.ok.inj h)
    exact hp.node (h₁.onto (onward_noteKeyless h₁.onward.ended entries))

/-- The body behind a keyword is placed behind it. -/
theorem keywordBody (hb : below.Sound source) {inCommand : Bool} (hp : p.Behind source hi t)
    (h : Level.keywordBody below inCommand t p = .ok (result, q)) :
    Yields source t.offset hi result q := by
  unfold Level.keywordBody at h
  split at h
  · obtain ⟨⟨params, body, p₁⟩, hbody, h⟩ := bind_eq_ok h
    obtain ⟨rfl, rfl⟩ := Prod.mk.inj (Except.ok.inj h)
    exact hp.node (hb.blockRest hp.ended hbody)
  · have hhead : p.Onward source hi
        (if t.text = "def" then signature t.line 0 p else (false, p)).2 := by
      split
      · exact hp.ended.signature t.line 0
      · exact .refl hp.ended
    generalize (if t.text = "def" then signature t.line 0 p else (false, p)) = head at h hhead
    obtain ⟨endless, p₁⟩ := head
    simp only at h hhead
    split at h
    · obtain ⟨⟨body, p₂⟩, hbody, h⟩ := bind_eq_ok h
      have h₂ := (hb.expression _ hhead.ended.fed hbody).lists
      obtain ⟨rfl, rfl⟩ := Prod.mk.inj (Except.ok.inj h)
      exact hp.node ((Lists.nil hhead).append h₂)
    · obtain ⟨⟨body, p₂⟩, hbody, h⟩ := bind_eq_ok h
      obtain ⟨p₃, hclose, h⟩ := bind_eq_ok h
      have h₂ := hb.statements_behind hhead.ended hbody
      obtain ⟨rfl, rfl⟩ := Prod.mk.inj (Except.ok.inj h)
      exact hp.node (((Lists.nil hhead).append h₂).onto (h₂.onward.ended.expect hclose))

/-- An arrow and its body are placed in order. -/
theorem arrowLambda (hb : below.Sound source) (hp : p.Behind source hi t)
    (h : Level.arrowLambda below t p = .ok (result, q)) : Yields source t.offset hi result q := by
  unfold Level.arrowLambda at h
  obtain ⟨⟨params, p₁⟩, hparams, h⟩ := bind_eq_ok h
  have h₁ := hp.ended.lambdaParameters hparams
  simp only at h
  split at h
  · cases h
  · next opener p₂ hnext =>
    have h₂ := h₁.trans (h₁.ended.next? hnext)
    have hbody : ∀ {c : Closer}, (do
        let rest ← Level.blockRest below c p₂
        return (⟨.callable (params ++ rest.1), t.span.through rest.2.2.last, rest.2.1⟩, rest.2.2) :
          Except ParseFailure (Tree × Progress)) = .ok (result, q) →
        Yields source t.offset hi result q := by
      intro c h
      obtain ⟨⟨own, body, p₃⟩, hrest, h⟩ := bind_eq_ok h
      obtain ⟨rfl, rfl⟩ := Prod.mk.inj (Except.ok.inj h)
      exact hp.node ((Lists.nil h₂).append (hb.blockRest h₂.ended hrest))
    split at h
    · exact hbody h
    · split at h
      · exact hbody h
      · cases h

/-- A hash without braces is placed around its entries. -/
theorem bareHash (hb : below.Sound source) {inCommand : Bool} (hp : p.Fed source lo hi)
    (h : Level.bareHash below inCommand p = .ok (result, q)) : Yields source lo hi result q := by
  unfold Level.bareHash at h
  obtain ⟨⟨pairs, p₁⟩, hpairs, h⟩ := bind_eq_ok h
  obtain ⟨hended, hrow, hne⟩ := (hb.entry inCommand).labelLoop hp (Nat.le_refl lo) .nil hpairs
  simp only at h
  split at h
  · exact absurd rfl hne
  · next first rest =>
    obtain ⟨rfl, rfl⟩ := Prod.mk.inj (Except.ok.inj h)
    have hfirst := hrow.within first (by simp)
    have hle := Nat.le_trans first.span.offset_le_stop hfirst.2
    have hrow' : Tree.InRow source first.span.offset p₁.last.stop (first :: rest) :=
      ⟨hrow.placed, hrow.ordered, fun c hc =>
        ⟨((Tree.InRow.tight hrow).within c hc).1, (hrow.within c hc).2⟩⟩
    refine ⟨hended, (Tree.Fits.through ?_ hended.last hle hrow').mono hfirst.1 (Nat.le_refl _)⟩
    exact (hrow.placed first (by simp)).standsIn

/-- A sign and its operand are placed in order. -/
theorem unary (hb : below.Sound source) {ctx : Context} (hp : p.Behind source hi t)
    (h : Level.unary below ctx t p = .ok (result, q)) : Yields source t.offset hi result q := by
  unfold Level.unary at h
  split at h
  · obtain ⟨⟨operand, p₁⟩, hoperand, h⟩ := bind_eq_ok h
    obtain ⟨rfl, rfl⟩ := Prod.mk.inj (Except.ok.inj h)
    exact hp.node (hb.operand ctx hp.ended.fed hoperand).lists
  · obtain ⟨rfl, rfl⟩ := Prod.mk.inj (Except.ok.inj h)
    exact hp.leaf _

/-- A jump and its value are placed in order. -/
theorem jump (hb : below.Sound source) {ctx : Context} (hp : p.Behind source hi t)
    (h : Level.jump below ctx t p = .ok (result, q)) : Yields source t.offset hi result q := by
  unfold Level.jump at h
  simp only at h
  split at h
  · obtain ⟨⟨value, p₁⟩, hvalue, h⟩ := bind_eq_ok h
    obtain ⟨rfl, rfl⟩ := Prod.mk.inj (Except.ok.inj h)
    exact (hp.leaf _).extend (hb.expression _ hp.ended.fed hvalue).lists
  · obtain ⟨rfl, rfl⟩ := Prod.mk.inj (Except.ok.inj h)
    exact hp.leaf _

/-- A name and its arguments are placed in order. -/
theorem named (hb : below.Sound source) (hp : p.Behind source hi t)
    (h : Level.named below t p = .ok (result, q)) : Yields source t.offset hi result q := by
  unfold Level.named at h
  obtain ⟨⟨args, p₁⟩, hargs, h⟩ := bind_eq_ok h
  have h₁ := hb.arguments? hp.ended hargs
  cases args with
  | some args =>
    obtain ⟨rfl, rfl⟩ := Prod.mk.inj (Except.ok.inj h)
    exact hp.call t.text h₁
  | none =>
    obtain ⟨rfl, rfl⟩ := Prod.mk.inj (Except.ok.inj h)
    exact (hp.leaf _).onto h₁.onward

/-- An operand with all that clings to it. -/
theorem primary (hb : below.Sound source) {inCommand : Bool}
    {rule : Except ParseFailure (Tree × Progress)}
    (hrule : ∀ {tree p}, rule = .ok (tree, p) → Yields source lo hi tree p)
    (h : (do
      let (tree, p) ← rule
      Level.clinging below inCommand tree p) = .ok (result, q)) :
    Yields source lo hi result q := by
  obtain ⟨⟨tree, p₁⟩, hread, h⟩ := bind_eq_ok h
  exact hb.clinging (hrule hread) h

/-- A word is placed with what stands behind it, whatever the word means. -/
theorem word (hb : below.Sound source) {ctx : Context} (hp : p.Behind source hi t)
    (h : Level.word below ctx t p = .ok (result, q)) : Yields source t.offset hi result q := by
  unfold Level.word at h
  simp only at h
  split at h
  · exact hb.clinging (hp.leaf _) h
  · exact hb.clinging (hp.leaf _) h
  · exact hb.clinging (hp.leaf _) h
  · exact hb.jump hp h
  · exact hb.jump hp h
  · exact hb.jump hp h
  · exact hb.jump hp h
  · exact hb.primary (fun hread => hb.named hp hread) h

/-- A mark is placed with what stands behind it. -/
theorem punctuated (hb : below.Sound source) {ctx : Context} (hp : p.Behind source hi t)
    (h : Level.punctuated below ctx t p = .ok (result, q)) :
    Yields source t.offset hi result q := by
  unfold Level.punctuated at h
  simp only at h
  split at h
  · exact hb.primary (fun hread => hb.parenthesised hp hread) h
  · exact hb.primary (fun hread => hb.array hp hread) h
  · exact hb.primary (fun hread => hb.arrowLambda hp hread) h
  · split at h
    · exact hb.unary hp h
    · have hp' : (p.noteToken t "skipped stray").Behind source hi t :=
        ⟨hp.placed, hp.ended.congr rfl rfl, hp.last⟩
      exact hb.clinging (hp'.leaf _) h

/-! ## the five rules -/

/-- An operand is placed in the source. -/
theorem operandAbove (hb : below.Sound source) (ctx : Context) :
    TreeRule source (Level.operandAbove below ctx) := by
  intro lo hi p tree q hp h
  unfold Level.operandAbove at h
  split at h
  · cases h
  · next t r hnext =>
    obtain ⟨hlo, hr⟩ := hp.next? hnext
    have hliteral : (do
        let (tree, p) ← Level.literal below t r
        Level.clinging below ctx.inCommand tree p) = .ok (tree, q) → Yields source lo hi tree q :=
      fun h => (hb.primary (fun hread => hb.literal hr hread) h).mono hlo
    simp only at h
    split at h
    · cases h
    · split at h
      · exact (hb.punctuated hr h).mono hlo
      · exact (hb.primary (fun hread => hb.braced hr hread) h).mono hlo
      · exact (hb.primary (fun hread => hb.keywordBody hr hread) h).mono hlo
      · exact hb.primary (fun hread => hb.bareHash hp hread) h
      · exact (hb.word hr h).mono hlo
      · exact hliteral h
      · exact hliteral h
      · exact hliteral h
      · exact hliteral h
      · exact hliteral h
      · exact hliteral h
      · exact (hb.clinging (hr.leaf _) h).mono hlo
      · exact (hb.clinging (hr.leaf _) h).mono hlo
      · exact (hb.clinging (hr.leaf _) h).mono hlo
      · exact (hb.clinging (hr.leaf _) h).mono hlo

/-- An expression is placed in the source. -/
theorem expressionAbove (hb : below.Sound source) (ctx : Context) :
    TreeRule source (Level.expressionAbove below ctx) := by
  intro lo hi p tree q hp h
  unfold Level.expressionAbove at h
  obtain ⟨⟨first, p₁⟩, hfirst, h⟩ := bind_eq_ok h
  obtain ⟨⟨rest, p₂⟩, hrest, h⟩ := bind_eq_ok h
  have h₁ := hb.operand ctx hp hfirst
  have h₂ := (hb.operand ctx).operandLoop (.nil (.refl h₁.ended)) hrest
  simp only at h
  split at h
  · obtain ⟨rfl, rfl⟩ := Prod.mk.inj (Except.ok.inj h)
    exact h₁.onto h₂.onward
  · obtain ⟨rfl, rfl⟩ := Prod.mk.inj (Except.ok.inj h)
    exact h₁.extend h₂

/-- An entry is placed in the source. -/
theorem entryAbove (hb : below.Sound source) (inCommand : Bool) :
    EntryRule source (Level.entryAbove below inCommand) := by
  intro lo hi p e q hp h
  unfold Level.entryAbove at h
  simp only at h
  split at h
  · cases h
  · next t r hnext =>
    split at h
    · obtain ⟨hlo, hr⟩ := hp.next? hnext
      have hkey := fun kind => (hr.leaf kind).fits.placed
      split at h
      · obtain ⟨rfl, rfl⟩ := Prod.mk.inj (Except.ok.inj h)
        refine ⟨hr.ended, (Tree.Fits.ofPair (hkey _) (hkey _) ?_ ?_).mono hlo ?_⟩
        · exact Nat.le_refl _
        · exact Nat.le_refl _
        · rw [hr.last]
          exact Nat.le_refl _
      · obtain ⟨⟨value, p₁⟩, hvalue, h⟩ := bind_eq_ok h
        have h₁ := hb.expression _ hr.ended.fed hvalue
        obtain ⟨rfl, rfl⟩ := Prod.mk.inj (Except.ok.inj h)
        exact ((hr.leaf _).pair h₁).mono hlo
    · obtain ⟨⟨first, p₁⟩, hfirst, h⟩ := bind_eq_ok h
      have h₁ := hb.expression _ hp hfirst
      simp only at h
      split at h
      · obtain ⟨⟨value, p₂⟩, hvalue, h⟩ := bind_eq_ok h
        have hskip := h₁.ended.skip
        have h₂ := hb.expression _ hskip.ended.fed hvalue
        obtain ⟨rfl, rfl⟩ := Prod.mk.inj (Except.ok.inj h)
        exact (h₁.onto hskip).pair h₂
      · obtain ⟨rfl, rfl⟩ := Prod.mk.inj (Except.ok.inj h)
        exact h₁

/-- A level is sound if the one below it is. -/
theorem above (hb : below.Sound source) : below.above.Sound source where
  statements hp h :=
    (hb.expression _).statementLoop hp (Nat.le_refl _) .nil h
  entries {c hi p es q} hp h := by
    have hstart : Lists source hi p ([].reverse.map Entry.tree) p := .nil (.refl hp)
    exact (hb.entryAbove _).entryLoop hstart h
  entry := hb.entryAbove
  expression := hb.expressionAbove
  operand := hb.operandAbove

/-- At the bottom nothing is read. -/
theorem bottom (source : String) : Level.bottom.Sound source where
  statements _ h := by cases h
  entries _ h := by cases h
  entry _ _ _ _ _ _ _ h := by cases h
  expression _ _ _ _ _ _ _ h := by cases h
  operand _ _ _ _ _ _ _ h := by cases h

end Level.Sound

/-- All levels are sound. -/
theorem Level.sound_levelAt (source : String) (n : Nat) : (Level.levelAt n).Sound source := by
  induction n with
  | zero =>
    have hbottom := Level.Sound.bottom source
    exact { hbottom with entry := hbottom.entryAbove }
  | succ n ih => exact ih.above

/-! ## whole sources -/

namespace Parsed

variable {source : String} {tokens : List Token} {parsed : Parsed}

/-- Tokens that are laid in a source give a tree that is placed in it. -/
theorem placed_ofTokens {hi : Nat} (hlaid : Laid source 0 hi tokens)
    (h : ofTokens tokens = .ok parsed) : parsed.tree.Placed source := by
  unfold ofTokens at h
  obtain ⟨⟨statements, p⟩, hread, h⟩ := bind_eq_ok h
  have hfed : (Progress.ofTokens tokens {}).Fed source 0 hi :=
    ⟨Nat.zero_le hi, hlaid.sublist List.filter_sublist⟩
  have hrow := ((Level.sound_levelAt source _).statements hfed hread).row
  obtain rfl := Except.ok.inj h
  exact hrow.ofStatements

/-- A program without statements stands at the beginning of its source. -/
theorem span_of_children_eq_nil (h : ofTokens tokens = .ok parsed)
    (hempty : parsed.tree.children = []) : parsed.tree.span = ⟨0, 0, 1, 0⟩ := by
  unfold ofTokens at h
  obtain ⟨⟨statements, p⟩, -, h⟩ := bind_eq_ok h
  obtain rfl := Except.ok.inj h
  cases statements with
  | nil => rfl
  | cons first rest => cases hempty

/-- What is parsed was scanned without a fault. -/
theorem ofSource_eq_ok (h : ofSource source = .ok parsed) :
    ∃ tokens, Token.scan source = .ok tokens ∧ ofTokens tokens = .ok parsed := by
  unfold ofSource at h
  split at h
  · cases h
  · next tokens hscan => exact ⟨tokens, hscan, h⟩

/-- **Layout of trees.** Whether a source is parsed strictly or from what a scan with faults could
make of it, its tree is placed in it: every node lies inside the node above it, the children of a
node are in order, and every span stands in the source where it says. -/
theorem placed_tree (source : String) (parsed : Parsed)
    (h : ofSource source = .ok parsed ∨ ofTokens (Token.scanLossy source).1 = .ok parsed) :
    parsed.tree.Placed source ∧ (parsed.tree.children = [] → parsed.tree.span = ⟨0, 0, 1, 0⟩) := by
  have htokens : ∃ tokens, Laid source 0 source.utf8ByteSize tokens ∧
      ofTokens tokens = .ok parsed := by
    cases h with
    | inl h =>
      obtain ⟨tokens, hscan, h⟩ := ofSource_eq_ok h
      obtain ⟨j, s, hat, -⟩ := ScanAt.start_strict hscan
      exact ⟨tokens, hat.laid_source, h⟩
    | inr h =>
      obtain ⟨j, s, hat, -⟩ := ScanAt.start_lossy source
      exact ⟨_, hat.laid_source, h⟩
  obtain ⟨tokens, hlaid, h⟩ := htokens
  exact ⟨placed_ofTokens hlaid h, span_of_children_eq_nil h⟩

/-- A call with an interpolated string, a labelled argument and a block. -/
def callWithBlock : String := "a(\"é#\x7bb\x7d\", c: 1).d do |e| e end"

theorem placed_callWithBlock :
    ∃ parsed, ofSource callWithBlock = .ok parsed ∧
      parsed.tree.preorder.map (fun t => (t.span.offset, t.span.stop)) =
        [(0, 32), (0, 32), (0, 17), (2, 10), (7, 8), (12, 16), (12, 16), (12, 14), (15, 16),
          (20, 32), (27, 28)] ∧
      parsed.tree.Placed callWithBlock := by
  have hspans : (ofSource callWithBlock).toOption.map
      (fun parsed => parsed.tree.preorder.map fun t => (t.span.offset, t.span.stop)) =
      some [(0, 32), (0, 32), (0, 17), (2, 10), (7, 8), (12, 16), (12, 16), (12, 14), (15, 16),
        (20, 32), (27, 28)] := by
    decide +kernel
  obtain ⟨parsed, hparse, hspans⟩ := exists_of_map_toOption hspans
  exact ⟨parsed, hparse, hspans, (placed_tree callWithBlock parsed (.inl hparse)).1⟩

end Parsed

end ConnectorAudit
