import ConnectorAudit.Proofs.Descents
import ConnectorAudit.Proofs.ShapedParses

/-!
# Parses go on

A parse uses up tokens and never gives one back.  The rules for operands, expressions and
entries use at least one, so every loop of the grammar that repeats them leaves fewer tokens
from round to round, and ends without its guard.  What the rules ask of their parts is one
level down, of which there are only so many.

* `Level.statementLoop_ends` and its kin: the loops over a rule that uses tokens end;
* `Level.Onward`, `Level.PartsOnward`, `Level.TokensOnward`: no rule goes back;
* `Level.goesOn_levelAt`: all of it, for all levels.
-/

namespace ConnectorAudit

/-! ## rules that go on -/

/-- The tokens that the rule leaves are the last of those it was given. -/
def KeepsOn {α : Type} (rule : Rule α) : Prop :=
  ∀ ⦃p a q⦄, rule p = .ok (a, q) → p.Reaches q

/-- And there are fewer of them. -/
def Advances {α : Type} (rule : Rule α) : Prop :=
  ∀ ⦃p a q⦄, rule p = .ok (a, q) → p.Reaches q ∧ q.left < p.left

/-- What is left to parse is among the tokens that are left. -/
theorem Progress.within_preorderAll (p : Progress) :
    p.Within (Token.preorderAll p.feed.items) :=
  fun _ ht => Token.preorder_subset_preorderAll ht

/-! ## loops -/

namespace Level

/-- Where the loop over trees stands: what it has read, last first, and the tokens left. -/
abbrev Round (α : Type) := List α × Progress → Except ParseFailure (List α × Progress)

/-- One round of the statements up to a closer. -/
def statementRound (expression : Rule Tree) (c : Closer) (again : Round Tree) : Round Tree
  | (done, p) =>
    match p.next? with
    | none => if c = .eof then .ok (done.reverse, p) else p.failAtEnd (.closer c)
    | some (t, q) =>
      if c.matches t then .ok (done.reverse, p)
      else if t.isCloser then p.failAt t (.closer c)
      else if t.separatesStatements then again (done, q)
      else
        match expression p with
        | .error failure => .error failure
        | .ok (tree, q) => again (tree :: done, q)

/-- One round of the operands behind the first one. -/
def operandRound (operand : Rule Tree) (ctx : Context) (again : Round Tree) : Round Tree
  | (done, p) =>
    match p.next? with
    | none => .ok (done.reverse, p)
    | some (t, q) =>
      if t.gap.newline || !t.isBinary ctx then .ok (done.reverse, p)
      else if q.peek?.all fun next => next.isCloser || next.isPunct ";" then .ok (done.reverse, q)
      else
        match operand q with
        | .error failure => .error failure
        | .ok (tree, r) => again (tree :: done, r)

/-- One round of the entries up to a closer, or as long as commas follow. -/
def entryRound (entry : Rule Entry) (c : Option Closer) (again : Round Entry) : Round Entry
  | (done, p) =>
    match entriesEnd? c p with
    | .error failure => .error failure
    | .ok (some q) => .ok (done.reverse, q)
    | .ok none =>
      match entry p with
      | .error failure => .error failure
      | .ok (e, q) =>
        match afterEntry c q with
        | .error failure => .error failure
        | .ok (true, r) => again (e :: done, r)
        | .ok (false, r) => .ok ((e :: done).reverse, r)

/-- One round of the entries of a hash without braces. -/
def labelRound (entry : Rule Entry) (again : Round Tree) : Round Tree
  | (done, p) =>
    match entry p with
    | .error failure => .error failure
    | .ok (e, q) =>
      if q.peek?.any (·.isPunct ",") && q.peekSecond?.any (·.kind == .label) then
        again (e.tree :: done, q.skip)
      else .ok ((e.tree :: done).reverse, q)

/-- One round of what clings to a node. -/
def clingRound (step : Tree → Progress → Except ParseFailure (Option (Tree × Progress)))
    (again : Tree × Progress → Except ParseFailure (Tree × Progress)) :
    Tree × Progress → Except ParseFailure (Tree × Progress)
  | (tree, p) =>
    match step tree p with
    | .error failure => .error failure
    | .ok none => .ok (tree, p)
    | .ok (some next) => again next

/-- How many tokens are left. -/
abbrev tokensLeft {α : Type} (s : α × Progress) : Nat := s.2.left

/-- The loop over statements ends. -/
theorem statementLoop_ends {expression : Rule Tree} (h : Advances expression) (c : Closer) :
    Ends tokensLeft (statementRound expression c)
      fun s => statementLoop expression c s.1 s.2 := by
  refine Descends.ends ?_ ?_
  · rintro f g ⟨done, p⟩ hfg
    simp only [statementRound]
    split
    · rfl
    · next t q hnext =>
      rw [hfg (done, q) (Progress.left_lt_next? hnext)]
      split
      · rfl
      · split
        · rfl
        · split
          · rfl
          · split
            · rfl
            · next tree r hread => exact hfg (tree :: done, r) (h hread).2
  · rintro ⟨done, p⟩
    simp only [statementRound]
    rw [statementLoop]
    split
    · next hnext => simp only [hnext]
    · next t q hnext =>
      simp only [hnext]
      split
      · rfl
      · split
        · rfl
        · split
          · rfl
          · cases hread : expression p with
            | error failure => rfl
            | ok next =>
              obtain ⟨tree, r⟩ := next
              exact if_pos (h hread).2

/-- The loop over operands ends. -/
theorem operandLoop_ends {operand : Rule Tree} (h : Advances operand) (ctx : Context) :
    Ends tokensLeft (operandRound operand ctx) fun s => operandLoop operand ctx s.1 s.2 := by
  have hless : ∀ {p q r : Progress} {t : Token} {tree : Tree}, p.next? = some (t, q) →
      operand q = .ok (tree, r) → r.left < p.left := fun hnext hread =>
    Nat.lt_trans (h hread).2 (Progress.left_lt_next? hnext)
  refine Descends.ends ?_ ?_
  · rintro f g ⟨done, p⟩ hfg
    simp only [operandRound]
    split
    · rfl
    · next t q hnext =>
      split
      · rfl
      · split
        · rfl
        · split
          · rfl
          · next tree r hread => exact hfg (tree :: done, r) (hless hnext hread)
  · rintro ⟨done, p⟩
    simp only [operandRound]
    rw [operandLoop]
    cases hnext : p.next? with
    | none => rfl
    | some next =>
      obtain ⟨t, q⟩ := next
      simp only
      split
      · rfl
      · split
        · rfl
        · cases hread : operand q with
          | error failure => rfl
          | ok next =>
            obtain ⟨tree, r⟩ := next
            exact if_pos (hless hnext hread)

/-- The loop over entries ends. -/
theorem entryLoop_ends {entry : Rule Entry} (h : Advances entry) (c : Option Closer) :
    Ends tokensLeft (entryRound entry c) fun s => entryLoop entry c s.1 s.2 := by
  have hless : ∀ {p q r : Progress} {e : Entry} {more : Bool}, entry p = .ok (e, q) →
      afterEntry c q = .ok (more, r) → r.left < p.left := fun hread hafter =>
    Nat.lt_of_le_of_lt (Progress.reaches_afterEntry hafter).left_le (h hread).2
  refine Descends.ends ?_ ?_
  · rintro f g ⟨done, p⟩ hfg
    simp only [entryRound]
    split
    · rfl
    · rfl
    · split
      · rfl
      · next e q hread =>
        split
        · rfl
        · next r hafter => exact hfg (e :: done, r) (hless hread hafter)
        · rfl
  · rintro ⟨done, p⟩
    simp only [entryRound]
    rw [entryLoop]
    cases hend : entriesEnd? c p with
    | error failure => rfl
    | ok stop =>
      cases stop with
      | some q => rfl
      | none =>
        simp only
        cases hread : entry p with
        | error failure => rfl
        | ok next =>
          obtain ⟨e, q⟩ := next
          simp only
          cases hafter : afterEntry c q with
          | error failure => rfl
          | ok next =>
            obtain ⟨more, r⟩ := next
            cases more with
            | false => rfl
            | true => simp [hless hread hafter]

/-- The loop over labelled entries ends. -/
theorem labelLoop_ends {entry : Rule Entry} (h : Advances entry) :
    Ends tokensLeft (labelRound entry) fun s => labelLoop entry s.1 s.2 := by
  have hless : ∀ {p q : Progress} {e : Entry}, entry p = .ok (e, q) → q.skip.left < p.left :=
    fun hread => Nat.lt_of_le_of_lt (Progress.reaches_skip _).left_le (h hread).2
  refine Descends.ends ?_ ?_
  · rintro f g ⟨done, p⟩ hfg
    simp only [labelRound]
    split
    · rfl
    · next e q hread => rw [hfg (e.tree :: done, q.skip) (hless hread)]
  · rintro ⟨done, p⟩
    simp only [labelRound]
    rw [labelLoop]
    cases hread : entry p with
    | error failure => rfl
    | ok next =>
      obtain ⟨e, q⟩ := next
      simp only [hless hread, decide_true, Bool.and_true]

/-- The loop over what clings to a tree ends. -/
theorem clingLoop_ends {step : Tree → Progress → Except ParseFailure (Option (Tree × Progress))}
    (h : ∀ {tree p result q}, step tree p = .ok (some (result, q)) → q.left < p.left) :
    Ends tokensLeft (clingRound step) fun s => clingLoop step s.1 s.2 := by
  refine Descends.ends ?_ ?_
  · rintro f g ⟨tree, p⟩ hfg
    simp only [clingRound]
    split
    · rfl
    · rfl
    · next next hstep => exact hfg next (h hstep)
  · rintro ⟨tree, p⟩
    simp only [clingRound]
    rw [clingLoop]
    cases hstep : step tree p with
    | error failure => rfl
    | ok clung =>
      cases clung with
      | none => rfl
      | some next => exact if_pos (h hstep)

/-! ## the five rules -/

/-- None of the five rules goes back.  The ones for a single thing use tokens, and statements
that nothing closes use them all. -/
structure Onward (l : Level) : Prop where
  statements : ∀ c, KeepsOn (l.statements c)
  statements_eof : ∀ ⦃p trees q⦄, l.statements .eof p = .ok (trees, q) → q.left = 0
  entries : ∀ c, KeepsOn (l.entries c)
  entry : ∀ inCommand, Advances (l.entry inCommand)
  expression : ∀ ctx, Advances (l.expression ctx)
  operand : ∀ ctx, Advances (l.operand ctx)

/-- The tokens left are among themselves, so what is known of rules among some tokens is known
of them anywhere. -/
theorem onward_levelAt (n : Nat) : (levelAt n).Onward where
  statements c p trees q h :=
    ((shaped_levelAt _ n).statements p.within_preorderAll h).1.reaches
  statements_eof p trees q h := by
    have hnone := ((shaped_levelAt _ n).statements p.within_preorderAll h).2 rfl
    rw [Progress.left_eq_length, hnone, List.length_nil]
  entries c p es q h := ((shaped_levelAt _ n).entries p.within_preorderAll h).1
  entry inCommand p e q h :=
    have hread := (shaped_levelAt _ n).entry inCommand p.within_preorderAll h
    ⟨hread.1, hread.2.1⟩
  expression ctx p tree q h :=
    have hread := (shaped_levelAt _ n).expression ctx p.within_preorderAll h
    ⟨hread.1.reaches, hread.2⟩
  operand ctx p tree q h :=
    have hread := (shaped_levelAt _ n).operand ctx p.within_preorderAll h
    ⟨hread.1.reaches, hread.2⟩

/-! ## the rules with parts one level down -/

section Parts

variable {n : Nat} {p q : Progress} {t : Token} {tree result : Tree}

/-- A run of strings is reached by going on. -/
theorem reaches_stringLoop {below : Level} {literal : Literal} {span : Span}
    {children : List Tree} (h : stringLoop below literal span children p = .ok (result, q)) :
    p.Reaches q := by
  fun_induction stringLoop below literal span children p with
  | case1 =>
    obtain ⟨-, rfl⟩ := Prod.mk.inj (Except.ok.inj h)
    exact .refl _
  | case2 => cases h
  | case3 literal span children p t r hnext _ _ more notes _ _ ih =>
    have hr : p.Reaches { r with notes } := (Progress.reaches_next? hnext).congr rfl
    exact hr.trans (ih h)
  | case4 =>
    obtain ⟨-, rfl⟩ := Prod.mk.inj (Except.ok.inj h)
    exact .refl _

/-- A literal is reached by going on. -/
theorem reaches_literal {below : Level} (h : literal below t p = .ok (result, q)) :
    p.Reaches q := by
  unfold literal at h
  obtain ⟨⟨children, notes⟩, -, h⟩ := bind_eq_ok h
  have hp : p.Reaches { p with notes } := (Progress.Reaches.refl p).congr rfl
  simp only at h
  split at h
  · exact hp.trans (reaches_stringLoop h)
  · obtain ⟨-, rfl⟩ := Prod.mk.inj (Except.ok.inj h)
    exact hp

/-- A rule that begins behind a token uses that one. -/
theorem advances_behind {r : Progress} (hnext : p.next? = some (t, r)) (hq : r.Reaches q) :
    p.Reaches q ∧ q.left < p.left :=
  ⟨(Progress.reaches_next? hnext).trans hq,
    Nat.lt_of_le_of_lt hq.left_le (Progress.left_lt_next? hnext)⟩

theorem reaches_blockRest {c : Closer} {params : List String} {trees : List Tree}
    (h : blockRest (levelAt n) c p = .ok (params, trees, q)) : p.Reaches q :=
  ((shaped_levelAt _ n).blockRest p.within_preorderAll h).reaches

theorem reaches_arguments? {args : Option (List Tree)}
    (h : arguments? (levelAt n) p = .ok (args, q)) : p.Reaches q :=
  ((shaped_levelAt _ n).arguments? p.within_preorderAll h).reaches

/-- A block that is attached is reached by going on. -/
theorem reaches_attachBlock (h : attachBlock (levelAt n) tree t p = .ok (result, q)) :
    p.Reaches q := by
  unfold attachBlock at h
  obtain ⟨⟨params, body, p₁⟩, hrest, h⟩ := bind_eq_ok h
  obtain ⟨-, rfl⟩ := Prod.mk.inj (Except.ok.inj h)
  exact reaches_blockRest hrest

/-- A call is reached by going on. -/
theorem reaches_methodCall (h : methodCall (levelAt n) tree p = .ok (result, q)) :
    p.Reaches q := by
  unfold methodCall at h
  obtain ⟨⟨name, p₁⟩, hname, h⟩ := bind_eq_ok h
  obtain ⟨⟨args, p₂⟩, hargs, h⟩ := bind_eq_ok h
  obtain ⟨-, rfl⟩ := Prod.mk.inj (Except.ok.inj h)
  exact (Shaped.methodName hname).trans (reaches_arguments? hargs)

theorem reaches_qualified (h : qualified (levelAt n) tree p = .ok (result, q)) :
    p.Reaches q := by
  unfold qualified at h
  split at h
  · next hnext =>
    split at h
    · obtain ⟨-, rfl⟩ := Prod.mk.inj (Except.ok.inj h)
      exact Progress.reaches_next? hnext
    · exact reaches_methodCall h
  · exact reaches_methodCall h

/-- What clings to a node begins with a token that only says what it is. -/
theorem advances_cling? {inCommand : Bool}
    (h : cling? (levelAt n) inCommand tree p = .ok (some (result, q))) :
    p.Reaches q ∧ q.left < p.left := by
  unfold cling? at h
  split at h
  · cases h
  · next t r hnext =>
    refine advances_behind hnext ?_
    simp only at h
    split at h
    · obtain ⟨⟨result', q'⟩, hcall, h⟩ := map_eq_ok h
      obtain ⟨rfl, rfl⟩ := Prod.mk.inj (Option.some.inj h)
      exact reaches_methodCall hcall
    · split at h
      · obtain ⟨⟨result', q'⟩, hcall, h⟩ := map_eq_ok h
        obtain ⟨rfl, rfl⟩ := Prod.mk.inj (Option.some.inj h)
        exact reaches_qualified hcall
      · split at h
        · obtain ⟨⟨entries, p₁⟩, hentries, h⟩ := bind_eq_ok h
          obtain ⟨-, rfl⟩ := Prod.mk.inj (Option.some.inj (Except.ok.inj h))
          exact (onward_levelAt n).entries _ hentries
        · split at h
          · obtain ⟨⟨result', q'⟩, hattach, h⟩ := map_eq_ok h
            obtain ⟨rfl, rfl⟩ := Prod.mk.inj (Option.some.inj h)
            exact reaches_attachBlock hattach
          · cases h

/-- What clings to a tree is reached by going on. -/
theorem reaches_clinging {inCommand : Bool}
    (h : clinging (levelAt n) inCommand tree p = .ok (result, q)) : p.Reaches q :=
  clingLoop_keeps (fun hstart hstep => Progress.Reaches.trans hstart (advances_cling? hstep).1)
    (Progress.Reaches.refl p) h

/-- Braces are reached by going on. -/
theorem reaches_braced (h : braced (levelAt n) t p = .ok (result, q)) : p.Reaches q := by
  unfold braced at h
  split at h
  · obtain ⟨⟨params, body, p₁⟩, hbody, h⟩ := bind_eq_ok h
    obtain ⟨-, rfl⟩ := Prod.mk.inj (Except.ok.inj h)
    exact reaches_blockRest hbody
  · obtain ⟨⟨entries, p₁⟩, hentries, h⟩ := bind_eq_ok h
    obtain ⟨-, rfl⟩ := Prod.mk.inj (Except.ok.inj h)
    exact ((onward_levelAt n).entries _ hentries).congr (Faithful.feed_noteKeyless entries p₁)

/-- Labelled entries are passed. -/
theorem advances_labelLoop {entry : Rule Entry} (hentry : Advances entry) {done trees : List Tree}
    (h : labelLoop entry done p = .ok (trees, q)) : p.Reaches q ∧ q.left < p.left := by
  fun_induction labelLoop entry done p with
  | case1 => cases h
  | case2 done p e r hread _ _ ih =>
    have hskip := (hentry hread).1.trans r.reaches_skip
    obtain ⟨hq, hlt⟩ := ih h
    exact ⟨hskip.trans hq, Nat.lt_of_lt_of_le hlt hskip.left_le⟩
  | case3 done p e r hread =>
    obtain ⟨-, rfl⟩ := Prod.mk.inj (Except.ok.inj h)
    exact hentry hread

/-- A hash without braces is passed. -/
theorem advances_bareHash (n : Nat) (inCommand : Bool) :
    Advances (bareHash (levelAt n) inCommand) := by
  intro p result q h
  unfold bareHash at h
  obtain ⟨⟨pairs, p₁⟩, hpairs, h⟩ := bind_eq_ok h
  have hmoves := advances_labelLoop ((onward_levelAt n).entry inCommand) hpairs
  simp only at h
  split at h
  · obtain ⟨-, rfl⟩ := Prod.mk.inj (Except.ok.inj h)
    exact hmoves
  · obtain ⟨-, rfl⟩ := Prod.mk.inj (Except.ok.inj h)
    exact hmoves

end Parts

/-- No rule goes back that has its parts at the level.  Most begin behind the token that chose
them; a literal is counted from that token on. -/
structure PartsOnward (below : Level) : Prop where
  literal : ∀ ⦃p t r tree q⦄, Progress.next? p = some (t, r) →
    literal below t r = .ok (tree, q) → p.Reaches q ∧ q.left < p.left
  blockRest : ∀ ⦃c p params trees q⦄, blockRest below c p = .ok (params, trees, q) → p.Reaches q
  arguments : KeepsOn (arguments? below)
  attachBlock : ∀ tree t, KeepsOn (attachBlock below tree t)
  methodCall : ∀ tree, KeepsOn (methodCall below tree)
  qualified : ∀ tree, KeepsOn (qualified below tree)
  cling : ∀ ⦃inCommand tree p result q⦄, cling? below inCommand tree p = .ok (some (result, q)) →
    p.Reaches q ∧ q.left < p.left
  clinging : ∀ inCommand tree, KeepsOn (clinging below inCommand tree)
  parenthesised : ∀ t, KeepsOn (parenthesised below t)
  array : ∀ t, KeepsOn (array below t)
  braced : ∀ t, KeepsOn (braced below t)
  keywordBody : ∀ inCommand t, KeepsOn (keywordBody below inCommand t)
  arrowLambda : ∀ t, KeepsOn (arrowLambda below t)
  bareHash : ∀ inCommand, Advances (bareHash below inCommand)
  unary : ∀ ctx t, KeepsOn (unary below ctx t)
  jump : ∀ ctx t, KeepsOn (jump below ctx t)
  named : ∀ t, KeepsOn (named below t)
  word : ∀ ctx t, KeepsOn (word below ctx t)
  punctuated : ∀ ctx t, KeepsOn (punctuated below ctx t)

/-- Every part of every level goes onward. -/
theorem partsOnward_levelAt (n : Nat) : (levelAt n).PartsOnward where
  literal _ _ _ _ _ hnext h := advances_behind hnext (reaches_literal h)
  blockRest _ _ _ _ _ := reaches_blockRest
  arguments _ _ _ := reaches_arguments?
  attachBlock _ _ _ _ _ := reaches_attachBlock
  methodCall _ _ _ _ := reaches_methodCall
  qualified _ _ _ _ := reaches_qualified
  cling _ _ _ _ _ := advances_cling?
  clinging _ _ _ _ _ := reaches_clinging
  parenthesised _ p _ _ h := ((shaped_levelAt _ n).parenthesised p.within_preorderAll h).reaches
  array _ p _ _ h := ((shaped_levelAt _ n).array p.within_preorderAll h).reaches
  braced _ _ _ _ := reaches_braced
  keywordBody _ _ p _ _ h := ((shaped_levelAt _ n).keywordBody p.within_preorderAll h).reaches
  arrowLambda _ p _ _ h := ((shaped_levelAt _ n).arrowLambda p.within_preorderAll h).reaches
  bareHash := advances_bareHash n
  unary _ _ p _ _ h := ((shaped_levelAt _ n).unary p.within_preorderAll h).reaches
  jump _ _ p _ _ h := ((shaped_levelAt _ n).jump p.within_preorderAll h).reaches
  named _ p _ _ h := ((shaped_levelAt _ n).named p.within_preorderAll h).reaches
  word _ _ p _ _ h := ((shaped_levelAt _ n).word p.within_preorderAll h).reaches
  punctuated _ _ p _ _ h := ((shaped_levelAt _ n).punctuated p.within_preorderAll h).reaches

/-- No rule goes back that has no parts. -/
structure TokensOnward : Prop where
  next : ∀ ⦃p t q⦄, Progress.next? p = some (t, q) → p.Reaches q ∧ p.left = q.left + 1
  skip : ∀ p, Progress.Reaches p p.skip
  expect : ∀ ⦃p c q⦄, Progress.expect p c = .ok q → p.Reaches q
  parameters : ∀ terminator ps, KeepsOn (parameters terminator ps)
  blockParameters : KeepsOn blockParameters
  bareParameters : ∀ params p, Progress.Reaches p (bareParameters params p).2
  lambdaParameters : KeepsOn lambdaParameters
  signature : ∀ line parens p, Progress.Reaches p (signature line parens p).2
  methodName : KeepsOn methodName
  entriesEnd : ∀ ⦃c p q⦄, entriesEnd? c p = .ok (some q) → p.Reaches q
  afterEntry : ∀ c, KeepsOn (afterEntry c)

/-- Every token goes onward. -/
theorem tokensOnward : TokensOnward where
  next _ _ _ h := ⟨Progress.reaches_next? h, Progress.left_next? h⟩
  skip := Progress.reaches_skip
  expect _ _ _ := Progress.reaches_expect
  parameters _ _ _ _ _ := Progress.reaches_parameters
  blockParameters _ _ _ := Progress.reaches_blockParameters
  bareParameters := Progress.reaches_bareParameters
  lambdaParameters _ _ _ := Progress.reaches_lambdaParameters
  signature := Progress.reaches_signature
  methodName _ _ _ := Shaped.methodName
  entriesEnd _ _ _ := Progress.reaches_entriesEnd?
  afterEntry _ _ _ _ := Progress.reaches_afterEntry

/-- The loops of the rules with their parts at the level end without their guards, because of
the tokens left. -/
structure LoopsEnd (below : Level) : Prop where
  statements : ∀ ctx c, Ends tokensLeft (statementRound (below.expression ctx) c)
    fun s => statementLoop (below.expression ctx) c s.1 s.2
  operands : ∀ ctx, Ends tokensLeft (operandRound (below.operand ctx) ctx)
    fun s => operandLoop (below.operand ctx) ctx s.1 s.2
  entries : ∀ inCommand c, Ends tokensLeft (entryRound (entryAbove below inCommand) c)
    fun s => entryLoop (entryAbove below inCommand) c s.1 s.2
  labels : ∀ inCommand, Ends tokensLeft (labelRound (below.entry inCommand))
    fun s => labelLoop (below.entry inCommand) s.1 s.2
  clinging : ∀ inCommand, Ends tokensLeft (clingRound (cling? below inCommand))
    fun s => clingLoop (cling? below inCommand) s.1 s.2

/-- Every loop of every level ends. -/
theorem loopsEnd_levelAt (n : Nat) : (levelAt n).LoopsEnd where
  statements ctx c := statementLoop_ends ((onward_levelAt n).expression ctx) c
  operands ctx := operandLoop_ends ((onward_levelAt n).operand ctx) ctx
  entries inCommand c := entryLoop_ends ((onward_levelAt (n + 1)).entry inCommand) c
  labels inCommand := labelLoop_ends ((onward_levelAt n).entry inCommand)
  clinging _ := clingLoop_ends fun h => (advances_cling? h).2

/-- A parse goes on from any place and ends.  Where `n` levels of nesting are left, no rule goes
back; operands, expressions, entries and literals use tokens, and statements that nothing
closes use all there are, which at the start are those that are not comments.  The rules of
the next level have their parts at this one, and their loops go on only with fewer tokens. -/
theorem goesOn_levelAt (n : Nat) :
    (levelAt n).Onward ∧ (levelAt n).PartsOnward ∧ TokensOnward ∧
      (∀ tokens last,
        (Progress.ofTokens tokens last).left = tokens.countP (·.kind != .comment)) ∧
      levelAt (n + 1) = above (levelAt n) ∧ (levelAt n).LoopsEnd := by
  refine ⟨onward_levelAt n, partsOnward_levelAt n, tokensOnward, fun tokens last => ?_, rfl,
    loopsEnd_levelAt n⟩
  rw [Progress.left_eq_length, List.countP_eq_length_filter]
  rfl

end Level

end ConnectorAudit
