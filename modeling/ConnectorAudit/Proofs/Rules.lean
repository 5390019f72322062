import ConnectorAudit.Proofs.TreeLayout

/-!
# Rules of the grammar

What the rules of the grammar have to show of the trees they read.  The
invariant of a parse is `Progress.Ended`: the tokens left lie behind the one
used last, so that a node that ends there ends before anything that is still to
come.  `Yields` is what a rule for one node has to show, and `Lists` what one
for several has; a level is `Level.Sound` if its five rules show them.

The loops of the grammar are here as well, each over whatever rule it repeats.
-/

namespace ConnectorAudit

/-! ## the progress of a parse -/

namespace Progress

/-- The tokens left are laid between the bytes `lo` and `hi`. -/
structure Fed (source : String) (lo hi : Nat) (p : Progress) : Prop where
  le : lo ≤ hi
  laid : Laid source lo hi p.feed.items

/-- The tokens left are laid behind the one used last. -/
structure Ended (source : String) (hi : Nat) (p : Progress) : Prop where
  last : p.last.StandsIn source
  fed : p.Fed source p.last.stop hi

/-- The token `t` was used last. -/
structure Behind (source : String) (hi : Nat) (t : Token) (p : Progress) : Prop where
  placed : t.Placed source
  ended : p.Ended source hi
  last : p.last = t.span

/-- The parse has gone on from `p` to `q`. -/
structure Onward (source : String) (hi : Nat) (p q : Progress) : Prop where
  ended : q.Ended source hi
  le : p.last.stop ≤ q.last.stop

variable {source : String} {lo hi : Nat} {p q r : Progress} {t : Token}

theorem Onward.refl (hp : p.Ended source hi) : p.Onward source hi p := ⟨hp, Nat.le_refl _⟩

theorem Onward.trans (hq : p.Onward source hi q) (hr : q.Onward source hi r) :
    p.Onward source hi r :=
  ⟨hr.ended, Nat.le_trans hq.le hr.le⟩

/-- What was noted does not matter. -/
theorem Ended.congr (hp : p.Ended source hi) (hfeed : q.feed = p.feed) (hlast : q.last = p.last) :
    q.Ended source hi where
  last := hlast ▸ hp.last
  fed := by
    refine ⟨hlast ▸ hp.fed.le, ?_⟩
    rw [hfeed, hlast]
    exact hp.fed.laid

/-- Using a token. -/
theorem Fed.next? (hp : p.Fed source lo hi) (h : p.next? = some (t, q)) :
    lo ≤ t.offset ∧ q.Behind source hi t := by
  unfold Progress.next? at h
  split at h
  · cases h
  · next u feed hfeed =>
    obtain ⟨rfl, rfl⟩ := Prod.mk.inj (Option.some.inj h)
    have hlaid := hp.laid
    rw [Feed.next?_eq_some_iff.1 hfeed] at hlaid
    have hu := hlaid.placed u (by simp)
    have hin := hlaid.within u (by simp)
    refine ⟨hin.1, hu, ⟨hu.standsIn_span, hin.2, ⟨?_, ?_, ?_⟩⟩, rfl⟩
    · exact fun v hv => hlaid.placed v (List.mem_cons_of_mem _ hv)
    · exact (List.pairwise_cons.1 hlaid.ordered).2
    · exact fun v hv => ⟨(List.pairwise_cons.1 hlaid.ordered).1 v hv,
        (hlaid.within v (List.mem_cons_of_mem _ hv)).2⟩

/-- Passing a token goes onward. -/
theorem Ended.next? (hp : p.Ended source hi) (h : p.next? = some (t, q)) :
    p.Onward source hi q := by
  obtain ⟨hlo, hq⟩ := hp.fed.next? h
  refine ⟨hq.ended, ?_⟩
  rw [hq.last]
  exact Nat.le_trans hlo t.span.offset_le_stop

theorem Ended.skip (hp : p.Ended source hi) : p.Onward source hi p.skip := by
  unfold Progress.skip
  split
  · exact .refl hp
  · next h => exact hp.next? h

/-- Passing an expected closer goes onward. -/
theorem Ended.expect (hp : p.Ended source hi) {c : Closer} (h : p.expect c = .ok q) :
    p.Onward source hi q := by
  unfold Progress.expect at h
  split at h
  · cases h
  · next t r hnext =>
    split at h
    · obtain rfl := Except.ok.inj h
      exact hp.next? hnext
    · cases h

/-! ## parameter lists -/

/-- Passing parameters goes onward. -/
theorem Ended.parameters (hp : p.Ended source hi) {terminator : String} {ps : Parameters}
    {names : List String} (h : parameters terminator ps p = .ok (names, q)) :
    p.Onward source hi q := by
  fun_induction ConnectorAudit.parameters terminator ps p with
  | case1 => cases h
  | case2 ps p t r hnext =>
    obtain ⟨-, rfl⟩ := Prod.mk.inj (Except.ok.inj h)
    exact hp.next? hnext
  | case3 => cases h
  | case4 ps p t r hnext _ _ _ ih =>
    have hr := hp.next? hnext
    exact hr.trans (ih hr.ended h)

/-- Passing the parameters of a block goes onward. -/
theorem Ended.blockParameters (hp : p.Ended source hi) {names : List String}
    (h : blockParameters p = .ok (names, q)) : p.Onward source hi q := by
  unfold ConnectorAudit.blockParameters at h
  split at h
  · obtain ⟨-, rfl⟩ := Prod.mk.inj (Except.ok.inj h)
    exact .refl hp
  · next t r hnext =>
    have hr := hp.next? hnext
    split at h
    · obtain ⟨-, rfl⟩ := Prod.mk.inj (Except.ok.inj h)
      exact hr
    · split at h
      · exact hr.trans (hr.ended.parameters h)
      · obtain ⟨-, rfl⟩ := Prod.mk.inj (Except.ok.inj h)
        exact .refl hp

theorem Ended.bareParameters (hp : p.Ended source hi) (params : List String) :
    p.Onward source hi (bareParameters params p).2 := by
  fun_induction ConnectorAudit.bareParameters params p with
  | case1 => exact .refl hp
  | case2 params p t r hnext _ _ ih =>
    have hr := hp.next? hnext
    exact hr.trans (ih hr.ended)
  | case3 => exact .refl hp

/-- Passing the parameters of a lambda goes onward. -/
theorem Ended.lambdaParameters (hp : p.Ended source hi) {names : List String}
    (h : lambdaParameters p = .ok (names, q)) : p.Onward source hi q := by
  unfold ConnectorAudit.lambdaParameters at h
  split at h
  · obtain ⟨-, rfl⟩ := Prod.mk.inj (Except.ok.inj h)
    exact .refl hp
  · next t r hnext =>
    split at h
    · have hr := hp.next? hnext
      exact hr.trans (hr.ended.parameters h)
    · obtain ⟨-, rfl⟩ := Prod.mk.inj (Except.ok.inj h)
      exact hp.bareParameters []

/-- Passing a signature goes onward. -/
theorem Ended.signature (hp : p.Ended source hi) (line parens : Nat) :
    p.Onward source hi (signature line parens p).2 := by
  fun_induction ConnectorAudit.signature line parens p with
  | case1 => exact .refl hp
  | case2 => exact .refl hp
  | case3 parens p t r hnext _ _ _ ih =>
    have hr := hp.next? hnext
    exact hr.trans (ih hr.ended)
  | case4 parens p t r hnext _ _ _ _ ih =>
    have hr := hp.next? hnext
    exact hr.trans (ih hr.ended)
  | case5 parens p t r hnext => exact hp.next? hnext
  | case6 parens p t r hnext _ _ _ _ _ ih =>
    have hr := hp.next? hnext
    exact hr.trans (ih hr.ended)

end Progress

/-! ## what rules show -/

/-- A tree was read, from the byte `lo` on, and the parse stands behind it. -/
structure Yields (source : String) (lo hi : Nat) (tree : Tree) (q : Progress) : Prop where
  ended : q.Ended source hi
  fits : tree.Fits source lo q.last.stop

/-- Trees were read on the way from `p` to `q`, perhaps none. -/
structure Lists (source : String) (hi : Nat) (p : Progress) (trees : List Tree) (q : Progress) :
    Prop where
  onward : p.Onward source hi q
  row : Tree.InRow source p.last.stop q.last.stop trees

/-- The parse has come from the byte `lo` to the byte `mid`, where the last token ends, if one was
used. -/
structure Arrives (source : String) (lo mid hi : Nat) (p q : Progress) : Prop where
  le : lo ≤ mid
  fed : q.Fed source mid hi
  last : q.last.StandsIn source ∧ q.last.stop = mid ∨ q.last = p.last ∧ mid = lo

/-- Trees were read from the byte `lo` on, perhaps before any token was used. -/
def Passes (source : String) (lo hi : Nat) (p : Progress) (trees : List Tree) (q : Progress) :
    Prop :=
  ∃ mid, Arrives source lo mid hi p q ∧ Tree.InRow source lo mid trees

/-- A rule that reads a tree. -/
def TreeRule (source : String) (rule : Rule Tree) : Prop :=
  ∀ ⦃lo hi p tree q⦄, p.Fed source lo hi → rule p = .ok (tree, q) → Yields source lo hi tree q

/-- A rule that reads an entry. -/
def EntryRule (source : String) (rule : Rule Entry) : Prop :=
  ∀ ⦃lo hi p e q⦄, p.Fed source lo hi → rule p = .ok (e, q) → Yields source lo hi e.tree q

/-- The five rules of a level keep to the layout. -/
structure Level.Sound (source : String) (l : Level) : Prop where
  statements : ∀ {c lo hi p trees q}, p.Fed source lo hi → l.statements c p = .ok (trees, q) →
    Passes source lo hi p trees q
  entries : ∀ {c hi p es q}, p.Ended source hi → l.entries c p = .ok (es, q) →
    Lists source hi p (es.map Entry.tree) q
  entry : ∀ inCommand, EntryRule source (l.entry inCommand)
  expression : ∀ ctx, TreeRule source (l.expression ctx)
  operand : ∀ ctx, TreeRule source (l.operand ctx)

section Results

variable {source : String} {lo hi : Nat} {p q r : Progress} {tree : Tree} {trees us : List Tree}

/-- A tree is placed behind an earlier bound as well. -/
theorem Yields.mono (h : Yields source lo hi tree q) {lo' : Nat} (hle : lo' ≤ lo) :
    Yields source lo' hi tree q :=
  ⟨h.ended, h.fits.mono hle (Nat.le_refl _)⟩

/-- A tree that is read behind another token is the first of a list. -/
theorem Yields.lists (h : Yields source p.last.stop hi tree q) : Lists source hi p [tree] q :=
  ⟨⟨h.ended, h.fits.le⟩, h.fits.row⟩

theorem Lists.nil (h : p.Onward source hi q) : Lists source hi p [] q := ⟨h, .nil⟩

/-- Lists are placed one behind the other. -/
theorem Lists.append (hq : Lists source hi p trees q) (hr : Lists source hi q us r) :
    Lists source hi p (trees ++ us) r :=
  ⟨hq.onward.trans hr.onward, hq.row.append hr.row hq.onward.le hr.onward.le⟩

/-- Passing over tokens adds nothing to a list. -/
theorem Lists.onto (hq : Lists source hi p trees q) (hr : q.Onward source hi r) :
    Lists source hi p trees r := by
  have hall := hq.append (.nil hr)
  rwa [List.append_nil] at hall

/-- Arguments that are gathered into a hash are placed where the entries were. -/
theorem Lists.collectArguments {entries : List Entry}
    (h : Lists source hi p (entries.map Entry.tree) q) :
    Lists source hi p (ConnectorAudit.collectArguments [] entries) q :=
  ⟨h.onward, Tree.InRow.collectArguments h.row h.onward.le⟩

/-- A node around what was read behind its beginning. -/
theorem Lists.node {kind : Tree.Kind} {s : Span} (h : Lists source hi p trees q)
    (hs : s.StandsIn source) (hle : s.offset ≤ p.last.stop) :
    Yields source s.offset hi ⟨kind, s.through q.last, trees⟩ q where
  ended := h.onward.ended
  fits := .through hs h.onward.ended.last (Nat.le_trans hle h.onward.le)
    (h.row.mono hle (Nat.le_refl _))

/-- A node with the trees inside its own span. -/
theorem Progress.Ended.node {kind : Tree.Kind} {s : Span} (hp : p.Ended source hi)
    (hs : s.StandsIn source) (hstop : s.stop ≤ p.last.stop)
    (h : Tree.InRow source s.offset s.stop trees) :
    Yields source s.offset hi ⟨kind, s, trees⟩ p :=
  ⟨hp, .of_row hs h (Nat.le_refl _) (Nat.le_refl _), Nat.le_refl _, hstop⟩

/-- A tree stays what it is when the parse goes on. -/
theorem Yields.onto (h : Yields source lo hi tree p) (hq : p.Onward source hi q) :
    Yields source lo hi tree q :=
  ⟨hq.ended, h.fits.mono (Nat.le_refl _) hq.le⟩

/-- A node around a tree and what was read behind it. -/
theorem Yields.extend {kind : Tree.Kind} (h : Yields source lo hi tree p)
    (htrees : Lists source hi p trees q) :
    Yields source lo hi ⟨kind, tree.span.through q.last, tree :: trees⟩ q := by
  have htree : tree.Fits source tree.span.offset p.last.stop :=
    ⟨h.fits.placed, Nat.le_refl _, h.fits.stop_le⟩
  refine ⟨htrees.onward.ended, ?_⟩
  refine (Tree.Fits.through h.fits.placed.standsIn htrees.onward.ended.last ?_
    (.cons htree htrees.row htrees.onward.le)).mono h.fits.le_offset (Nat.le_refl _)
  exact Nat.le_trans htree.le htrees.onward.le

/-- A key and the value read behind it. -/
theorem Yields.pair {value : Tree} (hkey : Yields source lo hi tree p)
    (hvalue : Yields source p.last.stop hi value q) :
    Yields source lo hi (.ofPair tree value) q := by
  have hstop := hkey.fits.stop_le
  have hoffset := hvalue.fits.le_offset
  have hspan := tree.span.offset_le_stop
  have hspan' := value.span.offset_le_stop
  refine ⟨hvalue.ended, (Tree.Fits.ofPair hkey.fits.placed hvalue.fits.placed ?_ ?_).mono
    hkey.fits.le_offset hvalue.fits.stop_le⟩
  · omega
  · omega

/-- A call on a receiver, with the arguments read behind it. -/
theorem Yields.call (h : Yields source lo hi tree p) (name : String)
    (hargs : Lists source hi p trees q) :
    Yields source lo hi
      (.ofCall name (some tree) trees none (tree.span.through q.last)) q := by
  unfold Tree.ofCall
  rw [Option.toList_some, Option.toList_none, List.append_nil, List.singleton_append]
  exact h.extend hargs

/-- A node around what was read behind its first token. -/
theorem Progress.Behind.node {t : Token} {kind : Tree.Kind} (hp : p.Behind source hi t)
    (h : Lists source hi p trees q) :
    Yields source t.offset hi ⟨kind, t.span.through q.last, trees⟩ q := by
  refine h.node hp.placed.standsIn_span ?_
  rw [hp.last]
  exact t.span.offset_le_stop

/-- A call is placed from its name to the last of its arguments. -/
theorem Progress.Behind.call {t : Token} (hp : p.Behind source hi t) (name : String)
    (h : Lists source hi p trees q) :
    Yields source t.offset hi (.ofCall name none trees none (t.span.through q.last)) q := by
  unfold Tree.ofCall
  rw [Option.toList_none, List.nil_append, List.append_nil]
  exact hp.node h

/-- A leaf is placed where its token is. -/
theorem Progress.Behind.leaf {t : Token} (hp : p.Behind source hi t) (kind : Tree.Kind) :
    Yields source t.offset hi (.leaf kind t.span) p := by
  refine ⟨hp.ended, ?_⟩
  rw [hp.last]
  exact .leaf hp.placed.standsIn_span

theorem Arrives.refl {mid : Nat} (hp : p.Fed source mid hi) : Arrives source mid mid hi p p :=
  ⟨Nat.le_refl _, hp, .inr ⟨rfl, rfl⟩⟩

/-- Where a token was used before, the last one ends where the parse has come to. -/
theorem Arrives.last_stop {mid : Nat} (h : Arrives source p.last.stop mid hi p q)
    (hp : p.Ended source hi) : q.last.StandsIn source ∧ q.last.stop = mid := by
  cases h.last with
  | inl hlast => exact hlast
  | inr hlast => exact ⟨hlast.1 ▸ hp.last, hlast.1 ▸ hlast.2.symm⟩

/-- Tokens were used up to `r`, and then perhaps more. -/
theorem Arrives.after {mid : Nat} (h : Arrives source r.last.stop mid hi r q)
    (hr : r.Ended source hi) (hle : lo ≤ r.last.stop) : Arrives source lo mid hi p q :=
  ⟨Nat.le_trans hle h.le, h.fed, .inl (h.last_stop hr)⟩

/-- Behind a token that was used, all that is passed is listed. -/
theorem Passes.lists (h : Passes source p.last.stop hi p trees q) (hp : p.Ended source hi) :
    Lists source hi p trees q := by
  obtain ⟨mid, harrive, hrow⟩ := h
  obtain ⟨hstands, rfl⟩ := harrive.last_stop hp
  exact ⟨⟨⟨hstands, harrive.fed⟩, harrive.le⟩, hrow⟩

theorem Passes.row (h : Passes source lo hi p trees q) : Tree.InRow source lo hi trees := by
  obtain ⟨mid, harrive, hrow⟩ := h
  exact hrow.mono (Nat.le_refl _) harrive.fed.le

/-- Statements are placed in order. -/
theorem Level.Sound.statements_behind {l : Level} (hl : l.Sound source) (hp : p.Ended source hi)
    {c : Closer} (h : l.statements c p = .ok (trees, q)) : Lists source hi p trees q :=
  (hl.statements hp.fed h).lists hp

end Results

/-! ## loops -/

namespace TreeRule

variable {source : String} {rule : Rule Tree} {lo hi mid : Nat} {p q : Progress}
  {done trees : List Tree}

/-- Statements follow each other. -/
theorem statementLoop (hrule : TreeRule source rule) {c : Closer} (hp : p.Fed source mid hi)
    (hle : lo ≤ mid) (hdone : Tree.InRow source lo mid done.reverse)
    (h : Level.statementLoop rule c done p = .ok (trees, q)) :
    ∃ n, Arrives source mid n hi p q ∧ Tree.InRow source lo n trees := by
  fun_induction Level.statementLoop rule c done p generalizing mid with
  | case1 =>
    obtain ⟨rfl, rfl⟩ := Prod.mk.inj (Except.ok.inj h)
    exact ⟨mid, .refl hp, hdone⟩
  | case2 => cases h
  | case3 =>
    obtain ⟨rfl, rfl⟩ := Prod.mk.inj (Except.ok.inj h)
    exact ⟨mid, .refl hp, hdone⟩
  | case4 => cases h
  | case5 done p t r hnext =>
    rename_i ih
    obtain ⟨hlo, hr⟩ := hp.next? hnext
    have hmid : mid ≤ r.last.stop := hr.last ▸ Nat.le_trans hlo t.span.offset_le_stop
    obtain ⟨n, harrive, hrow⟩ := ih hr.ended.fed (Nat.le_trans hle hmid)
      (hdone.mono (Nat.le_refl _) hmid) h
    exact ⟨n, harrive.after hr.ended hmid, hrow⟩
  | case6 => cases h
  | case7 done p t r hnext =>
    rename_i tree r' hread _ ih
    have htree := hrule hp hread
    obtain ⟨n, harrive, hrow⟩ := ih htree.ended.fed (Nat.le_trans hle htree.fits.le)
      (List.reverse_cons ▸ Tree.InRow.concat hdone htree.fits hle) h
    exact ⟨n, harrive.after htree.ended htree.fits.le, hrow⟩
  | case8 done p t r hnext =>
    rename_i tree r' hread _
    have htree := hrule hp hread
    obtain ⟨rfl, rfl⟩ := Prod.mk.inj (Except.ok.inj h)
    refine ⟨_, (Arrives.refl htree.ended.fed).after htree.ended htree.fits.le, ?_⟩
    exact List.reverse_cons ▸ Tree.InRow.concat hdone htree.fits hle

/-- Operands follow each other, with operators in between. -/
theorem operandLoop (hrule : TreeRule source rule) {ctx : Context} {start : Progress}
    (hdone : Lists source hi start done.reverse p)
    (h : Level.operandLoop rule ctx done p = .ok (trees, q)) : Lists source hi start trees q := by
  have hp := hdone.onward.ended
  fun_induction Level.operandLoop rule ctx done p with
  | case1 =>
    obtain ⟨rfl, rfl⟩ := Prod.mk.inj (Except.ok.inj h)
    exact hdone
  | case2 =>
    obtain ⟨rfl, rfl⟩ := Prod.mk.inj (Except.ok.inj h)
    exact hdone
  | case3 done p t r hnext =>
    obtain ⟨rfl, rfl⟩ := Prod.mk.inj (Except.ok.inj h)
    exact hdone.onto (hp.next? hnext)
  | case4 => cases h
  | case5 done p t r hnext _ _ tree r' hread _ ih =>
    have hr := hp.next? hnext
    have htree := (hrule hr.ended.fed hread).lists
    have hdone' := (hdone.onto hr).append htree
    rw [← List.reverse_cons] at hdone'
    exact ih hdone' h htree.onward.ended
  | case6 done p t r hnext _ _ tree r' hread _ =>
    have hr := hp.next? hnext
    have hdone' := (hdone.onto hr).append (hrule hr.ended.fed hread).lists
    obtain ⟨rfl, rfl⟩ := Prod.mk.inj (Except.ok.inj h)
    rw [← List.reverse_cons] at hdone'
    exact hdone'

end TreeRule

namespace Progress.Ended

variable {source : String} {hi : Nat} {p q : Progress}

/-- The end of entries goes onward. -/
theorem entriesEnd? (hp : p.Ended source hi) {c : Option Closer}
    (h : Level.entriesEnd? c p = .ok (some q)) : p.Onward source hi q := by
  unfold Level.entriesEnd? at h
  split at h
  · cases h
  · next c t r hnext =>
    split at h
    · obtain rfl := Option.some.inj (Except.ok.inj h)
      exact hp.next? hnext
    · split at h <;> cases h
  · obtain rfl := Option.some.inj (Except.ok.inj h)
    exact .refl hp
  · split at h
    · obtain rfl := Option.some.inj (Except.ok.inj h)
      exact .refl hp
    · cases h

/-- What stands behind an entry goes onward. -/
theorem afterEntry (hp : p.Ended source hi) {c : Option Closer} {more : Bool}
    (h : Level.afterEntry c p = .ok (more, q)) : p.Onward source hi q := by
  unfold Level.afterEntry at h
  split at h
  · obtain ⟨-, rfl⟩ := Prod.mk.inj (Except.ok.inj h)
    exact .refl hp
  · obtain ⟨-, rfl⟩ := Prod.mk.inj (Except.ok.inj h)
    exact .refl hp
  · next t r hnext =>
    split at h
    · obtain ⟨-, rfl⟩ := Prod.mk.inj (Except.ok.inj h)
      exact hp.next? hnext
    · obtain ⟨-, rfl⟩ := Prod.mk.inj (Except.ok.inj h)
      exact .refl hp
  · next c t r hnext =>
    split at h
    · obtain ⟨-, rfl⟩ := Prod.mk.inj (Except.ok.inj h)
      exact hp.next? hnext
    · split at h
      · obtain ⟨-, rfl⟩ := Prod.mk.inj (Except.ok.inj h)
        exact .refl hp
      · split at h
        · cases h
        · obtain ⟨-, rfl⟩ := Prod.mk.inj (Except.ok.inj h)
          exact ⟨hp.congr rfl rfl, Nat.le_refl _⟩

end Progress.Ended

namespace EntryRule

variable {source : String} {rule : Rule Entry} {lo hi mid : Nat} {p q : Progress}

/-- Entries follow each other, up to what closes them. -/
theorem entryLoop (hrule : EntryRule source rule) {c : Option Closer} {start : Progress}
    {done entries : List Entry} (hdone : Lists source hi start (done.reverse.map Entry.tree) p)
    (h : Level.entryLoop rule c done p = .ok (entries, q)) :
    Lists source hi start (entries.map Entry.tree) q := by
  have hp := hdone.onward.ended
  have hconcat : ∀ {e : Entry} {done : List Entry} {p r r' : Progress} {more : Bool},
      Lists source hi start (done.reverse.map Entry.tree) p → rule p = .ok (e, r) →
        Level.afterEntry c r = .ok (more, r') →
          Lists source hi start ((e :: done).reverse.map Entry.tree) r' := by
    intro e done p r r' more hdone hread hafter
    have hyields := hrule hdone.onward.ended.fed hread
    rw [List.reverse_cons, List.map_append]
    exact (hdone.append hyields.lists).onto (hyields.ended.afterEntry hafter)
  fun_induction Level.entryLoop rule c done p with
  | case1 => cases h
  | case2 done p r hend =>
    obtain ⟨rfl, rfl⟩ := Prod.mk.inj (Except.ok.inj h)
    exact hdone.onto (hp.entriesEnd? hend)
  | case3 => cases h
  | case4 => cases h
  | case5 done p _ e r hread more r' hafter _ ih =>
    have hdone' := hconcat hdone hread hafter
    exact ih hdone' h hdone'.onward.ended
  | case6 done p _ e r hread more r' hafter _ =>
    obtain ⟨rfl, rfl⟩ := Prod.mk.inj (Except.ok.inj h)
    exact hconcat hdone hread hafter

/-- Labelled entries follow each other; there is at least one. -/
theorem labelLoop (hrule : EntryRule source rule) {done trees : List Tree}
    (hp : p.Fed source mid hi) (hle : lo ≤ mid) (hdone : Tree.InRow source lo mid done.reverse)
    (h : Level.labelLoop rule done p = .ok (trees, q)) :
    q.Ended source hi ∧ Tree.InRow source lo q.last.stop trees ∧ trees ≠ [] := by
  fun_induction Level.labelLoop rule done p generalizing mid with
  | case1 => cases h
  | case2 done p e r hread =>
    rename_i ih
    have hyields := hrule hp hread
    have hskip := hyields.ended.skip
    have hrow := Tree.InRow.concat hdone hyields.fits hle
    refine ih hskip.ended.fed ?_ ?_ h
    · exact Nat.le_trans hle (Nat.le_trans hyields.fits.le hskip.le)
    · rw [List.reverse_cons]
      exact hrow.mono (Nat.le_refl _) hskip.le
  | case3 done p e r hread =>
    have hyields := hrule hp hread
    obtain ⟨rfl, rfl⟩ := Prod.mk.inj (Except.ok.inj h)
    rw [List.reverse_cons]
    exact ⟨hyields.ended, Tree.InRow.concat hdone hyields.fits hle, by simp⟩

end EntryRule

/-- What clings to a tree is added piece by piece: what every step keeps, the loop keeps. -/
theorem Level.clingLoop_keeps {P : Tree → Progress → Prop}
    {step : Tree → Progress → Except ParseFailure (Option (Tree × Progress))}
    (hstep : ∀ {tree p tree' q}, P tree p → step tree p = .ok (some (tree', q)) → P tree' q)
    {tree result : Tree} {p q : Progress} (hP : P tree p)
    (h : Level.clingLoop step tree p = .ok (result, q)) : P result q := by
  fun_induction Level.clingLoop step tree p with
  | case1 => cases h
  | case2 =>
    obtain ⟨rfl, rfl⟩ := Prod.mk.inj (Except.ok.inj h)
    exact hP
  | case3 tree p next r hread _ ih => exact ih (hstep hP hread) h
  | case4 tree p next r hread _ =>
    obtain ⟨rfl, rfl⟩ := Prod.mk.inj (Except.ok.inj h)
    exact hstep hP hread

end ConnectorAudit
