import ConnectorAudit.Proofs.Faithful
import ConnectorAudit.Proofs.Shapes

/-!
# Shaped parses

Every tree of a parse has a shape that the rules can make.  There is one lemma for every
rule of the grammar, and each takes the level below to be shaped.

* `Level.Shaped.above`: a level is shaped if the one below it is;
* `Parsed.shaped_ofTokens`: the statements of a source are shaped, whatever its tokens are.
-/

namespace ConnectorAudit

/-- The rules of a level make shaped trees, where `n` levels are left. -/
structure Level.Shaped (tokens : List Token) (n : Nat) (l : Level) : Prop where
  statements : ∀ {c p trees q}, p.Within tokens → l.statements c p = .ok (trees, q) →
    ShapesAll tokens .statement n p trees q ∧ (c = .eof → q.feed.items = [])
  entries : ∀ {c p es q}, p.Within tokens → l.entries c p = .ok (es, q) →
    p.Reaches q ∧ ∀ e ∈ es, e.Shaped tokens n
  entry : ∀ inCommand, ShapesEntry tokens n (l.entry inCommand)
  expression : ∀ ctx, ShapesTree tokens .expression n (l.expression ctx)
  operand : ∀ ctx, ShapesTree tokens .operand n (l.operand ctx)

namespace Level.Shaped

variable {tokens : List Token} {n : Nat} {below : Level} {p q r start : Progress} {t : Token}
  {tree result : Tree} {trees : List Tree}

/-! ## literals -/

/-- The code inside of a literal. -/
theorem interpolated (hb : below.Shaped tokens n) (ht : t.preorder ⊆ tokens)
    {notes notes' : List String} (h : Level.interpolated below t notes = .ok (trees, notes')) :
    ∀ tree ∈ trees, tree.Shaped tokens .statement n := by
  unfold Level.interpolated at h
  split at h
  · obtain ⟨rfl, -⟩ := Prod.mk.inj (Except.ok.inj h)
    nofun
  · split at h
    · cases h
    · next inner hread =>
      obtain ⟨rfl, -⟩ := Prod.mk.inj (Except.ok.inj h)
      have hwithin : (Progress.ofTokens t.nested t.span).Within tokens :=
        Progress.within_ofTokens (fun u hu => List.Subset.trans (Token.preorder_subset hu) ht)
          t.span
      exact (hb.statements hwithin hread).1.shaped

/-- Strings that follow each other on a line. -/
theorem stringLoop (hb : below.Shaped tokens n) {literal : Literal} {span : Span}
    (hp : p.Within tokens) (htrees : ∀ tree ∈ trees, tree.Shaped tokens .statement n)
    (h : Level.stringLoop below literal span trees p = .ok (result, q)) :
    Shapes tokens .operand (n + 1) p result q := by
  fun_induction Level.stringLoop below literal span trees p with
  | case1 =>
    obtain ⟨rfl, rfl⟩ := Prod.mk.inj (Except.ok.inj h)
    exact ⟨.refl _, .body rfl _ htrees⟩
  | case2 => cases h
  | case3 literal span trees p t r hnext _ _ more notes hread _ ih =>
    have hr : p.Reaches { r with notes } := (Progress.reaches_next? hnext).congr rfl
    have hmore := hb.interpolated (hp.head hnext) hread
    exact .into hr (ih (hr.within hp) (List.forall_mem_append.2 ⟨htrees, hmore⟩) h)
  | case4 =>
    obtain ⟨rfl, rfl⟩ := Prod.mk.inj (Except.ok.inj h)
    exact ⟨.refl _, .body rfl _ htrees⟩

/-- A literal is shaped as an operand. -/
theorem literal (hb : below.Shaped tokens n) (ht : t.preorder ⊆ tokens) (hp : p.Within tokens)
    (h : Level.literal below t p = .ok (result, q)) :
    Shapes tokens .operand (n + 1) p result q := by
  unfold Level.literal at h
  obtain ⟨⟨children, notes⟩, hread, h⟩ := bind_eq_ok h
  have hchildren := hb.interpolated ht hread
  have hp' : p.Reaches { p with notes } := (Progress.Reaches.refl p).congr rfl
  simp only at h
  split at h
  · exact .into hp' (hb.stringLoop (hp'.within hp) hchildren h)
  · obtain ⟨rfl, rfl⟩ := Prod.mk.inj (Except.ok.inj h)
    exact ⟨hp', .body rfl _ hchildren⟩

/-! ## bodies and arguments -/

/-- The rest of a block is shaped as statements. -/
theorem blockRest (hb : below.Shaped tokens n) (hp : p.Within tokens) {c : Closer}
    {params : List String} (h : Level.blockRest below c p = .ok (params, trees, q)) :
    ShapesAll tokens .statement n p trees q := by
  unfold Level.blockRest at h
  obtain ⟨⟨names, p₁⟩, hparams, h⟩ := bind_eq_ok h
  obtain ⟨⟨body, p₂⟩, hbody, h⟩ := bind_eq_ok h
  obtain ⟨p₃, hclose, h⟩ := bind_eq_ok h
  have h₁ := Progress.reaches_blockParameters hparams
  obtain ⟨h₂, -⟩ := hb.statements (h₁.within hp) hbody
  simp only [pure, Except.pure, Except.ok.injEq, Prod.mk.injEq] at h
  obtain ⟨-, rfl, rfl⟩ := h
  exact ⟨(h₁.trans h₂.reaches).trans (Progress.reaches_expect hclose), h₂.shaped⟩

/-- What entries are in a call or an array. -/
theorem collectArguments (hb : below.Shaped tokens n) (hp : p.Within tokens) {c : Option Closer}
    {es : List Entry} (h : below.entries c p = .ok (es, q)) :
    ShapesAll tokens .argument n p (collectArguments [] es) q := by
  obtain ⟨hq, hes⟩ := hb.entries hp h
  exact ⟨hq, shaped_collectArguments hes (List.forall_mem_nil _) (List.forall_mem_nil _)⟩

/-- Arguments are shaped as such. -/
theorem arguments? (hb : below.Shaped tokens n) (hp : p.Within tokens) {args : Option (List Tree)}
    (h : Level.arguments? below p = .ok (args, q)) :
    ShapesAll tokens .argument n p (args.getD []) q := by
  unfold Level.arguments? at h
  split at h
  · obtain ⟨⟨entries, p₁⟩, hentries, h⟩ := bind_eq_ok h
    have hargs := hb.collectArguments (p.reaches_skip.within hp) hentries
    obtain ⟨rfl, rfl⟩ := Prod.mk.inj (Except.ok.inj h)
    exact ⟨p.reaches_skip.trans hargs.reaches, hargs.shaped⟩
  · split at h
    · obtain ⟨⟨entries, p₁⟩, hentries, h⟩ := bind_eq_ok h
      obtain ⟨rfl, rfl⟩ := Prod.mk.inj (Except.ok.inj h)
      exact hb.collectArguments hp hentries
    · obtain ⟨rfl, rfl⟩ := Prod.mk.inj (Except.ok.inj h)
      exact .nil p

/-! ## what clings to an operand -/

/-- A block that is attached leaves an operand. -/
theorem attachBlock (hb : below.Shaped tokens n) (hp : p.Within tokens)
    (htree : tree.Shaped tokens .operand (n + 1)) (haccepts : Level.acceptsBlock tree = true)
    (h : Level.attachBlock below tree t p = .ok (result, q)) :
    Shapes tokens .operand (n + 1) p result q := by
  unfold Level.attachBlock at h
  obtain ⟨⟨params, body, p₁⟩, hrest, h⟩ := bind_eq_ok h
  have hbody := hb.blockRest hp hrest
  obtain ⟨rfl, rfl⟩ := Prod.mk.inj (Except.ok.inj h)
  exact ⟨hbody.reaches, .blocked params _ _ htree haccepts hbody.shaped⟩

theorem methodName {name : String} (h : Level.methodName p = .ok (name, q)) : p.Reaches q := by
  unfold Level.methodName at h
  split at h
  · cases h
  · next t r hnext =>
    have hr := Progress.reaches_next? hnext
    split at h
    · obtain ⟨-, rfl⟩ := Prod.mk.inj (Except.ok.inj h)
      exact .refl p
    · split at h
      · have hskip := hr.trans r.reaches_skip
        simp only at h
        split at h
        · obtain ⟨-, rfl⟩ := Prod.mk.inj (Except.ok.inj h)
          exact hskip.trans r.skip.reaches_skip
        · obtain ⟨-, rfl⟩ := Prod.mk.inj (Except.ok.inj h)
          exact hskip
      · have hname : (Except.ok (t.text, r) : Except ParseFailure (String × Progress)) =
            .ok (name, q) := by
          split at h
          · exact h
          · exact h
          · exact h
          · exact h
          · cases h
        obtain ⟨-, rfl⟩ := Prod.mk.inj (Except.ok.inj hname)
        exact hr

/-- A call is shaped as an operand. -/
theorem methodCall (hb : below.Shaped tokens n) (hp : p.Within tokens)
    (htree : tree.Shaped tokens .operand (n + 1))
    (h : Level.methodCall below tree p = .ok (result, q)) :
    Shapes tokens .operand (n + 1) p result q := by
  unfold Level.methodCall at h
  obtain ⟨⟨name, p₁⟩, hname, h⟩ := bind_eq_ok h
  obtain ⟨⟨args, p₂⟩, hargs, h⟩ := bind_eq_ok h
  have h₁ := methodName hname
  have h₂ := hb.arguments? (h₁.within hp) hargs
  obtain ⟨rfl, rfl⟩ := Prod.mk.inj (Except.ok.inj h)
  exact ⟨h₁.trans h₂.reaches, .call name _ (by simpa using htree) h₂.shaped⟩

theorem qualified (hb : below.Shaped tokens n) (hp : p.Within tokens)
    (htree : tree.Shaped tokens .operand (n + 1))
    (h : Level.qualified below tree p = .ok (result, q)) :
    Shapes tokens .operand (n + 1) p result q := by
  unfold Level.qualified at h
  split at h
  · next hnext =>
    split at h
    · obtain ⟨rfl, rfl⟩ := Prod.mk.inj (Except.ok.inj h)
      exact ⟨Progress.reaches_next? hnext, .name _ _⟩
    · exact hb.methodCall hp htree h
  · exact hb.methodCall hp htree h

/-- What clings to an operand leaves an operand. -/
theorem cling? (hb : below.Shaped tokens n) {inCommand : Bool} (hp : p.Within tokens)
    (htree : tree.Shaped tokens .operand (n + 1))
    (h : Level.cling? below inCommand tree p = .ok (some (result, q))) :
    Shapes tokens .operand (n + 1) p result q := by
  unfold Level.cling? at h
  split at h
  · cases h
  · next t r hnext =>
    have hr := Progress.reaches_next? hnext
    simp only at h
    split at h
    · obtain ⟨⟨result', q'⟩, hcall, h⟩ := map_eq_ok h
      obtain ⟨rfl, rfl⟩ := Prod.mk.inj (Option.some.inj h)
      exact .into hr (hb.methodCall (hr.within hp) htree hcall)
    · split at h
      · obtain ⟨⟨result', q'⟩, hcall, h⟩ := map_eq_ok h
        obtain ⟨rfl, rfl⟩ := Prod.mk.inj (Option.some.inj h)
        exact .into hr (hb.qualified (hr.within hp) htree hcall)
      · split at h
        · obtain ⟨⟨entries, p₁⟩, hentries, h⟩ := bind_eq_ok h
          have hargs := hb.collectArguments (hr.within hp) hentries
          obtain ⟨rfl, rfl⟩ := Prod.mk.inj (Option.some.inj (Except.ok.inj h))
          exact ⟨hr.trans hargs.reaches, .call "[]" _ (by simpa using htree) hargs.shaped⟩
        · split at h
          · next hblock =>
            obtain ⟨⟨result', q'⟩, hattach, h⟩ := map_eq_ok h
            obtain ⟨rfl, rfl⟩ := Prod.mk.inj (Option.some.inj h)
            have haccepts := (Bool.and_eq_true_iff.1 hblock).2
            exact .into hr (hb.attachBlock (hr.within hp) htree haccepts hattach)
          · cases h

/-- All that clings to an operand leaves an operand, piece by piece. -/
theorem clinging (hb : below.Shaped tokens n) {inCommand : Bool} (hstart : start.Within tokens)
    (htree : Shapes tokens .operand (n + 1) start tree p)
    (h : Level.clinging below inCommand tree p = .ok (result, q)) :
    Shapes tokens .operand (n + 1) start result q := by
  refine Level.clingLoop_keeps (fun {tree p tree' q} htree hstep => ?_) htree h
  exact .into htree.reaches (hb.cling? (htree.reaches.within hstart) htree.shaped hstep)

/-! ## operands -/

theorem parenthesised (hb : below.Shaped tokens n) (hp : p.Within tokens)
    (h : Level.parenthesised below t p = .ok (result, q)) :
    Shapes tokens .operand (n + 1) p result q := by
  unfold Level.parenthesised at h
  obtain ⟨⟨body, p₁⟩, hbody, h⟩ := bind_eq_ok h
  obtain ⟨p₂, hclose, h⟩ := bind_eq_ok h
  obtain ⟨h₁, -⟩ := hb.statements hp hbody
  obtain ⟨rfl, rfl⟩ := Prod.mk.inj (Except.ok.inj h)
  exact ⟨h₁.reaches.trans (Progress.reaches_expect hclose), .body rfl _ h₁.shaped⟩

theorem array (hb : below.Shaped tokens n) (hp : p.Within tokens)
    (h : Level.array below t p = .ok (result, q)) :
    Shapes tokens .operand (n + 1) p result q := by
  unfold Level.array at h
  obtain ⟨⟨entries, p₁⟩, hentries, h⟩ := bind_eq_ok h
  have h₁ := hb.collectArguments hp hentries
  obtain ⟨rfl, rfl⟩ := Prod.mk.inj (Except.ok.inj h)
  exact ⟨h₁.reaches, .array _ h₁.shaped⟩

/-- Braces are shaped as an operand. -/
theorem braced (hb : below.Shaped tokens n) (hp : p.Within tokens) (ht : t.preorder ⊆ tokens)
    (hkind : t.kind = .braceOpen) (h : Level.braced below t p = .ok (result, q)) :
    Shapes tokens .operand (n + 1) p result q := by
  have hbrace : t ∈ tokens := ht (by simp [Token.preorder_eq])
  unfold Level.braced at h
  split at h
  · obtain ⟨⟨params, body, p₁⟩, hbody, h⟩ := bind_eq_ok h
    have h₁ := hb.blockRest hp hbody
    obtain ⟨rfl, rfl⟩ := Prod.mk.inj (Except.ok.inj h)
    exact ⟨h₁.reaches, .body rfl _ h₁.shaped⟩
  · obtain ⟨⟨entries, p₁⟩, hentries, h⟩ := bind_eq_ok h
    obtain ⟨h₁, hes⟩ := hb.entries hp hentries
    obtain ⟨rfl, rfl⟩ := Prod.mk.inj (Except.ok.inj h)
    refine ⟨h₁.congr (Level.Faithful.feed_noteKeyless entries p₁), .braced hbrace hkind _ ?_⟩
    exact List.forall_mem_map.2 fun e he => (hes e he).tree

/-- The body behind a keyword is shaped as an operand. -/
theorem keywordBody (hb : below.Shaped tokens n) {inCommand : Bool} (hp : p.Within tokens)
    (h : Level.keywordBody below inCommand t p = .ok (result, q)) :
    Shapes tokens .operand (n + 1) p result q := by
  unfold Level.keywordBody at h
  split at h
  · obtain ⟨⟨params, body, p₁⟩, hbody, h⟩ := bind_eq_ok h
    have h₁ := hb.blockRest hp hbody
    obtain ⟨rfl, rfl⟩ := Prod.mk.inj (Except.ok.inj h)
    exact ⟨h₁.reaches, .body rfl _ h₁.shaped⟩
  · have hhead : p.Reaches (if t.text = "def" then signature t.line 0 p else (false, p)).2 := by
      split
      · exact Progress.reaches_signature t.line 0 p
      · exact .refl p
    generalize (if t.text = "def" then signature t.line 0 p else (false, p)) = head at h hhead
    obtain ⟨endless, p₁⟩ := head
    simp only at h hhead
    split at h
    · obtain ⟨⟨body, p₂⟩, hbody, h⟩ := bind_eq_ok h
      obtain ⟨h₂, -⟩ := hb.expression _ (hhead.within hp) hbody
      obtain ⟨rfl, rfl⟩ := Prod.mk.inj (Except.ok.inj h)
      exact ⟨hhead.trans h₂.reaches, .group _ (by simpa using h₂.shaped)⟩
    · obtain ⟨⟨body, p₂⟩, hbody, h⟩ := bind_eq_ok h
      obtain ⟨p₃, hclose, h⟩ := bind_eq_ok h
      obtain ⟨h₂, -⟩ := hb.statements (hhead.within hp) hbody
      have h₃ := (hhead.trans h₂.reaches).trans (Progress.reaches_expect hclose)
      obtain ⟨rfl, rfl⟩ := Prod.mk.inj (Except.ok.inj h)
      exact ⟨h₃, .body rfl _ h₂.shaped⟩

/-- An arrow and its body are shaped as an operand. -/
theorem arrowLambda (hb : below.Shaped tokens n) (hp : p.Within tokens)
    (h : Level.arrowLambda below t p = .ok (result, q)) :
    Shapes tokens .operand (n + 1) p result q := by
  unfold Level.arrowLambda at h
  obtain ⟨⟨params, p₁⟩, hparams, h⟩ := bind_eq_ok h
  have h₁ := Progress.reaches_lambdaParameters hparams
  simp only at h
  split at h
  · cases h
  · next opener p₂ hnext =>
    have h₂ := h₁.trans (Progress.reaches_next? hnext)
    have hbody : ∀ {c : Closer}, (do
        let rest ← Level.blockRest below c p₂
        return (⟨.callable (params ++ rest.1), t.span.through rest.2.2.last, rest.2.1⟩, rest.2.2) :
          Except ParseFailure (Tree × Progress)) = .ok (result, q) →
        Shapes tokens .operand (n + 1) p result q := by
      intro c h
      obtain ⟨⟨own, body, p₃⟩, hrest, h⟩ := bind_eq_ok h
      have h₃ := hb.blockRest (h₂.within hp) hrest
      obtain ⟨rfl, rfl⟩ := Prod.mk.inj (Except.ok.inj h)
      exact ⟨h₂.trans h₃.reaches, .body rfl _ h₃.shaped⟩
    split at h
    · exact hbody h
    · split at h
      · exact hbody h
      · cases h

theorem bareHash (hb : below.Shaped tokens n) {inCommand : Bool} (hp : p.Within tokens)
    (hlabel : p.peek?.any (·.kind == .label) = true)
    (h : Level.bareHash below inCommand p = .ok (result, q)) :
    Shapes tokens .operand (n + 1) p result q ∧ q.left < p.left := by
  unfold Level.bareHash at h
  obtain ⟨⟨pairs, p₁⟩, hpairs, h⟩ := bind_eq_ok h
  obtain ⟨hall, hne, hkinds, hlt⟩ :=
    (hb.entry inCommand).labelLoop hp hlabel (.nil p) (List.forall_mem_nil _) hpairs
  simp only at h
  split at h
  · exact absurd rfl hne
  · obtain ⟨rfl, rfl⟩ := Prod.mk.inj (Except.ok.inj h)
    exact ⟨⟨hall.reaches, .bare hne _ hkinds hall.shaped⟩, hlt⟩

theorem unary (hb : below.Shaped tokens n) {ctx : Context} (hp : p.Within tokens)
    (h : Level.unary below ctx t p = .ok (result, q)) :
    Shapes tokens .operand (n + 1) p result q := by
  unfold Level.unary at h
  split at h
  · obtain ⟨⟨operand, p₁⟩, hoperand, h⟩ := bind_eq_ok h
    obtain ⟨h₁, -⟩ := hb.operand ctx hp hoperand
    obtain ⟨rfl, rfl⟩ := Prod.mk.inj (Except.ok.inj h)
    exact ⟨h₁.reaches, .unary _ h₁.shaped⟩
  · obtain ⟨rfl, rfl⟩ := Prod.mk.inj (Except.ok.inj h)
    exact ⟨.refl p, .name _ _⟩

theorem jump (hb : below.Shaped tokens n) {ctx : Context} (hp : p.Within tokens)
    (h : Level.jump below ctx t p = .ok (result, q)) :
    Shapes tokens .operand (n + 1) p result q := by
  unfold Level.jump at h
  simp only at h
  split at h
  · obtain ⟨⟨value, p₁⟩, hvalue, h⟩ := bind_eq_ok h
    obtain ⟨h₁, -⟩ := hb.expression _ hp hvalue
    obtain ⟨rfl, rfl⟩ := Prod.mk.inj (Except.ok.inj h)
    refine ⟨h₁.reaches, .group _ ?_⟩
    exact List.forall_mem_cons.2 ⟨.name _ _, List.forall_mem_singleton.2 h₁.shaped⟩
  · obtain ⟨rfl, rfl⟩ := Prod.mk.inj (Except.ok.inj h)
    exact ⟨.refl p, .name _ _⟩

theorem named (hb : below.Shaped tokens n) (hp : p.Within tokens)
    (h : Level.named below t p = .ok (result, q)) :
    Shapes tokens .operand (n + 1) p result q := by
  unfold Level.named at h
  obtain ⟨⟨args, p₁⟩, hargs, h⟩ := bind_eq_ok h
  have h₁ := hb.arguments? hp hargs
  cases args with
  | some args =>
    obtain ⟨rfl, rfl⟩ := Prod.mk.inj (Except.ok.inj h)
    exact ⟨h₁.reaches, .call t.text _ nofun h₁.shaped⟩
  | none =>
    obtain ⟨rfl, rfl⟩ := Prod.mk.inj (Except.ok.inj h)
    exact ⟨h₁.reaches, .name _ _⟩

/-- An operand with all that clings to it. -/
theorem primary (hb : below.Shaped tokens n) {inCommand : Bool} (hp : p.Within tokens)
    {rule : Except ParseFailure (Tree × Progress)}
    (hrule : ∀ {tree q}, rule = .ok (tree, q) → Shapes tokens .operand (n + 1) p tree q)
    (h : (do
      let (tree, q) ← rule
      Level.clinging below inCommand tree q) = .ok (result, r)) :
    Shapes tokens .operand (n + 1) p result r := by
  obtain ⟨⟨tree, p₁⟩, hread, h⟩ := bind_eq_ok h
  exact hb.clinging hp (hrule hread) h

/-- A word is shaped as an operand, whatever the word means. -/
theorem word (hb : below.Shaped tokens n) {ctx : Context} (hp : p.Within tokens)
    (h : Level.word below ctx t p = .ok (result, q)) :
    Shapes tokens .operand (n + 1) p result q := by
  unfold Level.word at h
  simp only at h
  split at h
  · exact hb.clinging hp ⟨.refl p, .constant _ _⟩ h
  · exact hb.clinging hp ⟨.refl p, .constant _ _⟩ h
  · exact hb.clinging hp ⟨.refl p, .constant _ _⟩ h
  · exact hb.jump hp h
  · exact hb.jump hp h
  · exact hb.jump hp h
  · exact hb.jump hp h
  · exact hb.primary hp (fun hread => hb.named hp hread) h

/-- What a mark begins is shaped as an operand. -/
theorem punctuated (hb : below.Shaped tokens n) {ctx : Context} (hp : p.Within tokens)
    (h : Level.punctuated below ctx t p = .ok (result, q)) :
    Shapes tokens .operand (n + 1) p result q := by
  unfold Level.punctuated at h
  simp only at h
  split at h
  · exact hb.primary hp (fun hread => hb.parenthesised hp hread) h
  · exact hb.primary hp (fun hread => hb.array hp hread) h
  · exact hb.primary hp (fun hread => hb.arrowLambda hp hread) h
  · split at h
    · exact hb.unary hp h
    · have hnoted : p.Reaches (p.noteToken t "skipped stray") := (Progress.Reaches.refl p).congr rfl
      exact hb.clinging hp ⟨hnoted, .name _ _⟩ h

/-! ## the five rules -/

/-- An operand is shaped one level up. -/
theorem operandAbove (hb : below.Shaped tokens n) (ctx : Context) :
    ShapesTree tokens .operand (n + 1) (Level.operandAbove below ctx) := by
  intro p tree q hp h
  unfold Level.operandAbove at h
  split at h
  · cases h
  · next t r hnext =>
    have hr := Progress.reaches_next? hnext
    have hr' := hr.within hp
    have ht := hp.head hnext
    -- All but a hash without braces is read from behind the first token.
    have hbehind : Shapes tokens .operand (n + 1) r tree q →
        Shapes tokens .operand (n + 1) p tree q ∧ q.left < p.left := fun h =>
      ⟨.into hr h, Nat.lt_of_le_of_lt h.reaches.left_le (Progress.left_lt_next? hnext)⟩
    have hliteral : (do
        let (tree, p) ← Level.literal below t r
        Level.clinging below ctx.inCommand tree p) = .ok (tree, q) →
        Shapes tokens .operand (n + 1) p tree q ∧ q.left < p.left :=
      fun h => hbehind (hb.primary hr' (fun hread => hb.literal ht hr' hread) h)
    have hstray : Level.clinging below ctx.inCommand (.leaf (.identifier t.text) t.span) r =
        .ok (tree, q) → Shapes tokens .operand (n + 1) p tree q ∧ q.left < p.left :=
      fun h => hbehind (hb.clinging hr' ⟨.refl r, .name _ _⟩ h)
    simp only at h
    split at h
    · cases h
    · split at h
      · exact hbehind (hb.punctuated hr' h)
      · next hkind =>
        exact hbehind (hb.primary hr' (fun hread => hb.braced hr' ht hkind hread) h)
      · exact hbehind (hb.primary hr' (fun hread => hb.keywordBody hr' hread) h)
      · next hkind =>
        have hlabel : p.peek?.any (·.kind == .label) = true := by
          simp [Progress.peek?, Feed.head?, Progress.items_next? hnext, hkind]
        obtain ⟨⟨first, p₁⟩, hread, h⟩ := bind_eq_ok h
        obtain ⟨hhash, hlt⟩ := hb.bareHash hp hlabel hread
        have hrest := hb.clinging (hhash.reaches.within hp) ⟨.refl p₁, hhash.shaped⟩ h
        exact ⟨.into hhash.reaches hrest, Nat.lt_of_le_of_lt hrest.reaches.left_le hlt⟩
      · exact hbehind (hb.word hr' h)
      · exact hliteral h
      · exact hliteral h
      · exact hliteral h
      · exact hliteral h
      · exact hliteral h
      · exact hliteral h
      · exact hstray h
      · exact hstray h
      · exact hstray h
      · exact hstray h

/-- An expression is shaped one level up. -/
theorem expressionAbove (hb : below.Shaped tokens n) (ctx : Context) :
    ShapesTree tokens .expression (n + 1) (Level.expressionAbove below ctx) := by
  intro p tree q hp h
  unfold Level.expressionAbove at h
  obtain ⟨⟨first, p₁⟩, hfirst, h⟩ := bind_eq_ok h
  obtain ⟨⟨rest, p₂⟩, hrest, h⟩ := bind_eq_ok h
  obtain ⟨h₁, hlt⟩ := hb.operand ctx hp hfirst
  have h₂ := (hb.operand ctx).operandLoop (h₁.reaches.within hp) (.nil p₁) hrest
  have hlt' := Nat.lt_of_le_of_lt h₂.reaches.left_le hlt
  simp only at h
  split at h
  · obtain ⟨rfl, rfl⟩ := Prod.mk.inj (Except.ok.inj h)
    exact ⟨⟨h₁.reaches.trans h₂.reaches, .single h₁.shaped⟩, hlt'⟩
  · obtain ⟨rfl, rfl⟩ := Prod.mk.inj (Except.ok.inj h)
    exact ⟨⟨h₁.reaches.trans h₂.reaches,
      .chain _ (List.forall_mem_cons.2 ⟨h₁.shaped, h₂.shaped⟩)⟩, hlt'⟩

end Level.Shaped

/-- What an entry can be: a label that stands alone, a labelled value, or an expression that may
have its value behind an arrow. -/
theorem Level.entryAbove_eq_ok {below : Level} {inCommand : Bool} {p q : Progress} {e : Entry}
    (h : entryAbove below inCommand p = .ok (e, q)) :
    (∃ t name, p.next? = some (t, q) ∧ e = .pair
      (.ofPair (.leaf (.literal (.symbol name)) t.span) (.leaf (.identifier name) t.span))) ∨
    (∃ t name r ctx value, p.next? = some (t, r) ∧ below.expression ctx r = .ok (value, q) ∧
      e = .pair (.ofPair (.leaf (.literal (.symbol name)) t.span) value)) ∨
    ∃ ctx tree r, below.expression ctx p = .ok (tree, r) ∧
      (p.peek?.any (·.kind == .label) = false ∧ e = .positional tree ∧ q = r ∨
        ∃ value, below.expression ctx r.skip = .ok (value, q) ∧
          e = .pair (.ofPair tree value)) := by
  unfold entryAbove at h
  simp only at h
  split at h
  · cases h
  · next t r hnext =>
    split at h
    · split at h
      · obtain ⟨rfl, rfl⟩ := Prod.mk.inj (Except.ok.inj h)
        exact .inl ⟨t, _, hnext, rfl⟩
      · obtain ⟨⟨value, p₁⟩, hvalue, h⟩ := bind_eq_ok h
        obtain ⟨rfl, rfl⟩ := Prod.mk.inj (Except.ok.inj h)
        exact .inr (.inl ⟨t, _, r, _, value, hnext, hvalue, rfl⟩)
    · next hlabel =>
      obtain ⟨⟨tree, p₁⟩, htree, h⟩ := bind_eq_ok h
      refine .inr (.inr ⟨_, tree, p₁, htree, ?_⟩)
      simp only at h
      split at h
      · obtain ⟨⟨value, p₂⟩, hvalue, h⟩ := bind_eq_ok h
        obtain ⟨rfl, rfl⟩ := Prod.mk.inj (Except.ok.inj h)
        exact .inr ⟨value, hvalue, rfl⟩
      · obtain ⟨rfl, rfl⟩ := Prod.mk.inj (Except.ok.inj h)
        refine .inl ⟨?_, rfl, rfl⟩
        simpa [Progress.peek?, Feed.head?, Progress.items_next? hnext] using hlabel

namespace ShapesEntry

variable {tokens : List Token} {n : Nat} {below : Level}

/-- An entry is shaped one level up. -/
theorem entryAbove (hexpression : ∀ ctx, ShapesTree tokens .expression n (below.expression ctx))
    (inCommand : Bool) : ShapesEntry tokens (n + 1) (Level.entryAbove below inCommand) := by
  intro p e q hp h
  have hpair : ∀ {tree : Tree}, tree.kind = .pair → tree.Shaped tokens .entry (n + 1) →
      (Entry.pair tree).Shaped tokens (n + 1) := by
    intro tree hkind htree
    refine ⟨htree, fun {tree'} heq => ?_⟩
    obtain rfl := Entry.pair.inj heq
    exact hkind
  rcases Level.entryAbove_eq_ok h with ⟨t, name, hnext, rfl⟩ |
    ⟨t, name, r, ctx, value, hnext, hvalue, rfl⟩ |
    ⟨ctx, tree, r, htree, ⟨hlabel, rfl, rfl⟩ | ⟨value, hvalue, rfl⟩⟩
  · exact ⟨Progress.reaches_next? hnext, Progress.left_lt_next? hnext,
      hpair rfl (.shorthand name t.span), fun _ => rfl⟩
  · have hr := Progress.reaches_next? hnext
    obtain ⟨h₁, hlt⟩ := hexpression ctx (hr.within hp) hvalue
    exact ⟨hr.trans h₁.reaches, Nat.lt_trans hlt (Progress.left_lt_next? hnext),
      hpair rfl (.pair (.constant _ _) h₁.shaped), fun _ => rfl⟩
  · obtain ⟨h₁, hlt⟩ := hexpression ctx hp htree
    refine ⟨h₁.reaches, hlt, ⟨.positional h₁.shaped, nofun⟩, fun hpeek => ?_⟩
    rw [hlabel] at hpeek
    cases hpeek
  · obtain ⟨h₁, hlt⟩ := hexpression ctx hp htree
    have hskip := h₁.reaches.trans r.reaches_skip
    obtain ⟨h₂, hlt'⟩ := hexpression ctx (hskip.within hp) hvalue
    exact ⟨hskip.trans h₂.reaches, Nat.lt_of_lt_of_le hlt' hskip.left_le,
      hpair rfl (.pair h₁.shaped h₂.shaped), fun _ => rfl⟩

/-- Where nothing can be nested, an entry is a label that stands alone. -/
theorem entryAbove_bottom (inCommand : Bool) :
    ShapesEntry tokens 0 (Level.entryAbove .bottom inCommand) := by
  intro p e q hp h
  rcases Level.entryAbove_eq_ok h with ⟨t, name, hnext, rfl⟩ |
    ⟨_, _, _, _, _, _, hvalue, -⟩ | ⟨_, _, _, htree, -⟩
  · refine ⟨Progress.reaches_next? hnext, Progress.left_lt_next? hnext,
      ⟨.shorthand name t.span, fun {tree} heq => ?_⟩, fun _ => rfl⟩
    obtain rfl := Entry.pair.inj heq
    rfl
  · cases hvalue
  · cases htree

end ShapesEntry

namespace Level

variable {tokens : List Token} {n : Nat}

/-- A level is shaped if the one below it is. -/
theorem Shaped.above {below : Level} (hb : below.Shaped tokens n) :
    below.above.Shaped tokens (n + 1) where
  statements {c p trees q} hp h := by
    obtain ⟨hall, hend⟩ := (hb.expression _).statementLoop hp (.nil p) h
    exact ⟨⟨hall.reaches, fun tree htree => .statement (hall.shaped tree htree)⟩, hend⟩
  entries {c p es q} hp h :=
    (ShapesEntry.entryAbove hb.expression c.isNone).entryLoop hp (.refl p) (List.forall_mem_nil _) h
  entry := ShapesEntry.entryAbove hb.expression
  expression := hb.expressionAbove
  operand := hb.operandAbove

/-- All levels are shaped. -/
theorem shaped_levelAt (tokens : List Token) (n : Nat) : (levelAt n).Shaped tokens n := by
  induction n with
  | zero =>
    exact
      { statements := fun _ h => by cases h
        entries := fun _ h => by cases h
        entry := ShapesEntry.entryAbove_bottom
        expression := fun _ _ _ _ _ h => by cases h
        operand := fun _ _ _ _ _ h => by cases h }
  | succ n ih => exact ih.above

end Level

/-- The statements of a source are shaped, whatever its tokens are. -/
theorem Parsed.shaped_ofTokens {tokens : List Token} {parsed : Parsed}
    (h : ofTokens tokens = .ok parsed) : ∃ statements, parsed.tree = .ofStatements statements ∧
      ∀ tree ∈ statements,
        tree.Shaped (Token.preorderAll tokens) .statement (nestingLimit + 1) := by
  unfold ofTokens at h
  obtain ⟨⟨statements, p⟩, hread, h⟩ := bind_eq_ok h
  have hwithin : (Progress.ofTokens tokens {}).Within (Token.preorderAll tokens) :=
    Progress.within_ofTokens (fun t ht => Token.preorder_subset_preorderAll ht) {}
  obtain rfl := Except.ok.inj h
  exact ⟨statements, rfl, ((Level.shaped_levelAt _ _).statements hwithin hread).1.shaped⟩

end ConnectorAudit
