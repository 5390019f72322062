import ConnectorAudit.Proofs.Seams

/-!
# Parses across a seam

What a rule reads of the tokens before a seam, it reads of them with the others behind
them.  A rule that is done looks at the next token, and takes it only for something
that the seam excludes; so each rule is followed up to where it may stand at the end
of the first tokens.

`Level.Sews` says it of the rules of a level.  It holds of every level
(`Level.sews_levelAt`), by one lemma for each rule of the grammar.
-/

namespace ConnectorAudit

namespace Seam

variable {s : Seam} {n m : Nat} {α : Type} {move : α → α}
  {x y : Except ParseFailure (α × Progress)}

/-- A further bound leaves the same result. -/
theorem Yields.mono {a b : α × Progress} (h : s.Yields move n a b) (hnm : n ≤ m) :
    s.Yields move m a b := ⟨h.eq, h.place.mono hnm⟩

end Seam

theorem Agree.mono_left {s : Seam} {n m : Nat} {α : Type} {move : α → α}
    {x y : Except ParseFailure (α × Progress)} (h : Agree (s.Yields move n) x y) (hnm : n ≤ m) :
    Agree (s.Yields move m) x y := h.mono fun _ _ hab => hab.mono hnm

/-- What is made of a part of the tokens. -/
theorem Agree.andThen {s : Seam} {n : Nat} {α γ δ : Type} {move : α → α} {T : γ → δ → Prop}
    {x y : Except ParseFailure (α × Progress)} {f : α × Progress → Except ParseFailure γ}
    {f' : α × Progress → Except ParseFailure δ} (h : Agree (s.Yields move n) x y)
    (hf : ∀ {a q q'}, s.At n q q' → Agree T (f (a, q)) (f' (move a, q'))) :
    Agree T (x >>= f) (y >>= f') := by
  refine h.bind ?_
  rintro ⟨a, q⟩ ⟨_, q'⟩ ⟨rfl, hq⟩
  exact hf hq

/-- The rules of a level read of the tokens before a seam what they read without the others. -/
structure Level.Sews (below : Level) : Prop where
  statements : ∀ {s : Seam} {c : Closer} {p p' : Progress}, (c = .eof → s.after = []) →
    s.Same p p' → Agree (s.Yields (List.map (Tree.moved s.shift)) (p.left + 1))
      (below.statements c p) (below.statements c p')
  closed : ∀ {s : Seam} {c : Closer} {p p' : Progress}, s.Same p p' →
    Agree (s.Yields (List.map (Entry.moved s.shift)) p.left) (below.entries (some c) p)
      (below.entries (some c) p')
  opened : ∀ {s : Seam} {p p' : Progress}, s.Same p p' → p.feed.items ≠ [] →
    Agree (s.Yields (List.map (Entry.moved s.shift)) (p.left + 1)) (below.entries none p)
      (below.entries none p')
  entry : ∀ {s : Seam} {inCommand : Bool} {p p' : Progress}, s.Same p p' →
    Agree (s.Yields (Entry.moved s.shift) p.left) (below.entry inCommand p)
      (below.entry inCommand p')
  expression : ∀ {s : Seam} {ctx : Context} {p p' : Progress}, s.Same p p' →
    Agree (s.Yields (Tree.moved s.shift) p.left) (below.expression ctx p)
      (below.expression ctx p')
  operand : ∀ {s : Seam} {ctx : Context} {p p' : Progress}, s.Same p p' →
    Agree (s.Yields (Tree.moved s.shift) p.left) (below.operand ctx p) (below.operand ctx p')

namespace Level

/-- One string of a run of strings, and then the rest of the run. -/
theorem stringLoop_eq (below : Level) (literal : Literal) (span : Span) (children : List Tree)
    (p : Progress) :
    stringLoop below literal span children p =
      match p.next? with
      | none => .ok (⟨.literal literal, span, children⟩, p)
      | some (t, q) =>
        if t.kind = .string ∧ ¬t.gap.newline then
          match interpolated below t q.notes with
          | .error failure => .error failure
          | .ok (trees, notes) =>
            stringLoop below (joinLiteral literal t) (span.through t.span) (children ++ trees)
              { q with notes }
        else .ok (⟨.literal literal, span, children⟩, p) := by
  rw [stringLoop]
  split
  · next heq => simp only [heq]
  · next heq =>
    dsimp only
    rewrite [heq]
    rfl

/-- One statement, and then the rest of the statements. -/
theorem statementLoop_eq (expression : Rule Tree) (c : Closer) (done : List Tree) (p : Progress) :
    statementLoop expression c done p =
      match p.next? with
      | none => if c = .eof then .ok (done.reverse, p) else p.failAtEnd (.closer c)
      | some (t, q) =>
        if c.matches t then .ok (done.reverse, p)
        else if t.isCloser then p.failAt t (.closer c)
        else if t.separatesStatements then statementLoop expression c done q
        else
          match expression p with
          | .error failure => .error failure
          | .ok (tree, q) =>
            if q.left < p.left then statementLoop expression c (tree :: done) q
            else .ok ((tree :: done).reverse, q) := by
  rw [statementLoop]
  split
  · next heq => simp only [heq]
  · next heq =>
    dsimp only
    rewrite [heq]
    rfl

end Level

/-! ## names behind call operators -/

/-- A method's name is read alike on both sides; at the seam it is the last token before it. -/
theorem Seam.At.methodName {s : Seam} {n : Nat} {p p' : Progress} {u : Token} (h : s.At n p p')
    (hu : u.isCallOperator = true)
    (hpast : u :: p.feed.items <:+ s.before) :
    Agree (fun x y => s.Yields id n x y ∧
        (x.2.feed.items = [] → s.after ≠ [] → Token.endsInName s.before = true))
      (Level.methodName p) (Level.methodName p') := by
  unfold Level.methodName
  obtain ⟨t, q, q', hnext, hnext', hitems, hq⟩ | ⟨-, hnext, -⟩ := h.same.next
  · have hbehind := h.behind hitems hq
    rw [hitems] at hpast
    have hlast : [t] ++ q.feed.items <:+ s.before := (List.suffix_cons _ _).trans hpast
    have hindex : (t.isPunct "[" && q'.peek?.any fun u => u.isPunct "]" && !u.gap.space) =
        (t.isPunct "[" && q.peek?.any fun u => u.isPunct "]" && !u.gap.space) := by
      cases hopen : t.isPunct "[" with
      | false => rfl
      | true =>
        rw [hq.any_peek?_eq (by simp)]
        intro hnil v rest hafter
        rw [hnil] at hlast
        rw [Seam.after_eq_nil hlast (Token.not_finishes_of_isPunct hopen (by decide))] at hafter
        cases hafter
    simp only [hnext, hnext', Token.isPunct_moved, Token.kind_moved, Token.text_moved, hindex]
    split
    · refine .ok ⟨⟨rfl, h⟩, fun hnil => ?_⟩
      rw [hitems] at hnil
      cases hnil
    · split
      · next hsecond =>
        obtain ⟨hopen, hclose⟩ := Bool.and_eq_true_iff.1 hsecond
        obtain ⟨v, hnext₂, hv⟩ := Progress.next?_of_peek? hclose
        have hitems₂ := Progress.items_next? hnext₂
        rw [hitems₂] at hpast
        have hskip := hbehind.skip (by rw [hitems₂]; exact List.cons_ne_nil _ _)
        rw [hskip.same.any_peek?_eq (by simp) ?_]
        · split
          · next hequals =>
            obtain ⟨w, hnext₃, hw⟩ := Progress.next?_of_peek? hequals
            have hitems₃ := Progress.items_next? hnext₃
            refine .ok ⟨⟨rfl, hskip.skip (by rw [hitems₃]; exact List.cons_ne_nil _ _)⟩, ?_⟩
            intro hnil hafter
            rw [hitems₃, show q.skip.skip.feed.items = [] from hnil] at hpast
            have hw' := Token.not_finishes_of_isPunct (Bool.and_eq_true_iff.1 hw).1 (by decide)
            exact absurd (Seam.after_eq_nil ((List.suffix_append [u, t, v] [w]).trans hpast) hw')
              hafter
          · refine .ok ⟨⟨rfl, hskip⟩, fun hnil _ => ?_⟩
            rw [show q.skip.feed.items = [] from hnil] at hpast
            exact Token.endsInName_of_index hpast hu hopen (Bool.and_eq_true_iff.1 hv).1
        · intro _ w rest hafter
          exact Token.assigns_of_not_continues
            (Seam.not_continues (List.ne_nil_of_mem (hpast.subset List.mem_cons_self)) hafter)
      · split
        all_goals first
          | exact .failed _ _
          | refine .ok ⟨⟨rfl, hbehind⟩, fun hnil _ => ?_⟩
            rw [show q.feed.items = [] from hnil] at hpast
            exact Token.endsInName_of_callOperator hpast hu
  · rw [hnext]
    exact .failed _ _

/-- The end of an entry is read alike on both sides, unless a comma stands right behind the seam. -/
theorem Seam.At.afterEntry {s : Seam} {n : Nat} {p p' : Progress} (h : s.At n p p')
    {c : Option Closer} (hend : p.feed.items = [] → c = none ∧
      ∀ t rest, s.after = t :: rest → t.isPunct "," = false) :
    Agree (s.Yields id n) (Level.afterEntry c p) (Level.afterEntry c p') := by
  unfold Level.afterEntry
  obtain ⟨t, q, q', hnext, hnext', hitems, hq⟩ |
    ⟨hitems, hnext, ⟨-, hnext'⟩ | ⟨t, q', hafter, hnext'⟩⟩ := h.same.next
  · have hbehind := h.behind hitems hq
    cases c with
    | none =>
      simp only [hnext, hnext', Token.isPunct_moved]
      split
      · exact .ok ⟨rfl, hbehind⟩
      · exact .ok ⟨rfl, h⟩
    | some c =>
      simp only [hnext, hnext', Token.isPunct_moved, Closer.matches_moved, Token.isCloser_moved]
      split
      · exact .ok ⟨rfl, hbehind⟩
      · split
        · exact .ok ⟨rfl, h⟩
        · split
          · exact .failed _ _
          · exact .ok ⟨rfl, h.notes _ _⟩
  · obtain ⟨rfl, -⟩ := hend hitems
    simp only [hnext, hnext']
    exact .ok ⟨rfl, h⟩
  · obtain ⟨rfl, hcomma⟩ := hend hitems
    simp only [hnext, hnext', hcomma t _ hafter]
    exact .ok ⟨rfl, h⟩

namespace Level

namespace Sews

variable {below : Level} (hbelow : below.Sews) {s : Seam} {n : Nat} {p p' : Progress} {t u : Token}

include hbelow

/-! ## literals -/

/-- What is interpolated into a string does not depend on where the string stands. -/
theorem interpolated (σ : Shift) (t : Token) (notes notes' : List String) :
    Agree (fun x y => y.1 = x.1.map (Tree.moved σ)) (interpolated below t notes)
      (interpolated below (t.moved σ) notes') := by
  unfold Level.interpolated
  simp only [Token.nested_moved, List.isEmpty_map, Token.span_moved]
  split
  · exact .ok rfl
  · let inner : Seam := ⟨Token.significant t.nested, [], σ, Token.apart_nil _⟩
    have hsame : inner.Same (.ofTokens t.nested t.span)
        (.ofTokens (t.nested.map (Token.moved σ)) (t.span.moved σ)) := by
      refine ⟨List.suffix_refl _, ?_, fun _ => rfl⟩
      simp [Progress.ofTokens, List.filter_map, Function.comp_def, inner]
    have hread := hbelow.statements (c := .eof) (fun _ => rfl) hsame
    cases hx : below.statements .eof (.ofTokens t.nested t.span) with
    | error failure => exact .failed _ _
    | ok read =>
      obtain ⟨⟨trees', q'⟩, hx', htrees, -⟩ := hread _ hx
      simp only [hx']
      exact .ok htrees

/-- A run of strings is read alike on both sides. -/
theorem stringLoop (h : s.At n p p') (hu : u.kind = .string)
    (hpast : u :: p.feed.items <:+ s.before) (literal : Literal) (span : Span)
    (children : List Tree) :
    Agree (s.Yields (Tree.moved s.shift) n) (stringLoop below literal span children p)
      (stringLoop below literal (span.moved s.shift) (children.map (Tree.moved s.shift)) p') := by
  induction hleft : p.left using Nat.strongRecOn generalizing u literal span children p p' with
  | ind m ih =>
    have hdone : s.Yields (Tree.moved s.shift) n (⟨.literal literal, span, children⟩, p)
        (⟨.literal literal, span.moved s.shift, children.map (Tree.moved s.shift)⟩, p') :=
      ⟨(Tree.moved_mk _ _ _ _).symm, h⟩
    rw [stringLoop_eq, stringLoop_eq]
    obtain ⟨t, q, q', hnext, hnext', hitems, hq⟩ |
      ⟨hitems, hnext, ⟨-, hnext'⟩ | ⟨t, q', hafter, hnext'⟩⟩ := h.same.next
    · simp only [hnext, hnext', Token.kind_moved, Token.gap_moved, joinLiteral_moved,
        Token.span_moved, Span.moved_through]
      split
      · next hstring =>
        have hread := hbelow.interpolated s.shift t q.notes q'.notes
        cases hx : Level.interpolated below t q.notes with
        | error failure => exact .failed _ _
        | ok read =>
          obtain ⟨⟨trees', notes'⟩, hx', rfl⟩ := hread _ hx
          simp only [hx', ← List.map_append]
          exact ih _ (hleft ▸ Progress.left_lt_of_items hitems) ((h.behind hitems hq).notes _ _)
            hstring.1 (hitems ▸ (List.suffix_cons _ _).trans hpast) _ _ _ rfl
      · exact .ok hdone
    · simp only [hnext, hnext']
      exact .ok hdone
    · rw [hitems] at hpast
      have hjoins : u.joins t = false := (Seam.apart_of_suffix hpast hafter).2.2.1
      have hother : ¬(t.kind = .string ∧ ¬t.gap.newline) := by simpa [Token.joins, hu] using hjoins
      simp only [hnext, hnext', if_neg hother]
      exact .ok hdone

/-- A literal is read alike on both sides. -/
theorem literal (h : s.At n p p') (hpast : t :: p.feed.items <:+ s.before) :
    Agree (s.Yields (Tree.moved s.shift) n) (literal below t p)
      (literal below (t.moved s.shift) p') := by
  unfold Level.literal
  refine (hbelow.interpolated s.shift t p.notes p'.notes).bind ?_
  rintro ⟨children, notes⟩ ⟨_, notes'⟩ rfl
  simp only [Token.kind_moved, literalOf_moved, Token.span_moved]
  split
  · next hstring => exact hbelow.stringLoop (h.notes notes notes') hstring hpast _ _ _
  · exact .ok ⟨(Tree.moved_mk _ _ _ _).symm, h.notes _ _⟩

/-! ## bodies and arguments -/

/-- A body that something closes is read alike on both sides. -/
theorem body (h : s.At n p p') (c : Closer) (hc : c ≠ .eof) :
    Agree (s.Yields (List.map (Tree.moved s.shift)) n) (below.statements c p)
      (below.statements c p') :=
  (hbelow.statements (fun heof => absurd heof hc) h.same).mono_left h.left_lt

/-- A body does not end with the tokens: its closer follows. -/
theorem items_ne_nil_of_closer {c : Closer} (hc : c ≠ .eof) {body : List Tree}
    {q r : Progress} (hbody : below.statements c p = .ok (body, q)) (hend : q.expect c = .ok r) :
    p.feed.items ≠ [] := by
  intro hp
  -- The seam behind the tokens left, with nothing behind it.
  let all : Seam := ⟨p.feed.items, [], {}, Token.apart_nil _⟩
  have hsame : all.Same p
      { p with feed := .ofList (p.feed.items.map (Token.moved {})), last := p.last.moved {} } :=
    ⟨List.suffix_refl _, (List.append_nil _).symm, fun _ => rfl⟩
  obtain ⟨_, -, hyields⟩ := hbelow.statements (fun heof => absurd heof hc) hsame _ hbody
  have hq : q.feed.items = [] := by
    have hlt := hyields.place.left_lt
    rw [Progress.left_eq_length, Progress.left_eq_length, hp] at hlt
    exact List.eq_nil_of_length_eq_zero (Nat.lt_one_iff.1 hlt)
  rw [Progress.expect, Progress.next?_of_items_nil hq] at hend
  cases hend

/-- The rest of a block, from its parameters on, is read alike on both sides. -/
theorem blockRest (h : s.At n p p') (c : Closer) (hc : c ≠ .eof) :
    Agree (fun x y => y.1 = x.1 ∧ s.Yields (List.map (Tree.moved s.shift)) n x.2 y.2)
      (blockRest below c p) (blockRest below c p') := by
  unfold Level.blockRest
  refine .bind_of_ok fun (params, q) x hparams hrest => ?_
  have hp : p.feed.items ≠ [] := by
    intro hnil
    obtain ⟨⟨body, r⟩, hbody, hend⟩ := bind_eq_ok hrest
    obtain ⟨z, hz, -⟩ := bind_eq_ok hend
    rw [blockParameters, Progress.next?_of_items_nil hnil] at hparams
    obtain ⟨-, rfl⟩ := Prod.mk.inj (Except.ok.inj hparams)
    exact hbelow.items_ne_nil_of_closer hc hbody hz hnil
  obtain ⟨⟨_, q'⟩, hparams', rfl, hq⟩ := h.blockParameters hp _ hparams
  refine ⟨_, hparams', (hbelow.body hq c hc).andThen fun hr => ?_⟩
  exact (hr.expect c).bind fun _ _ hz => .ok ⟨rfl, rfl, hz⟩

/-- What is made of a block. -/
theorem withBlockRest (h : s.At n p p') (c : Closer) (hc : c ≠ .eof) {γ δ : Type}
    {T : γ → δ → Prop} {f : List String × List Tree × Progress → Except ParseFailure γ}
    {f' : List String × List Tree × Progress → Except ParseFailure δ}
    (hf : ∀ {params body q q'}, s.At n q q' →
      Agree T (f (params, body, q)) (f' (params, body.map (Tree.moved s.shift), q'))) :
    Agree T (Level.blockRest below c p >>= f) (Level.blockRest below c p' >>= f') := by
  refine (hbelow.blockRest h c hc).bind ?_
  rintro ⟨params, body, q⟩ ⟨params', body', q'⟩ ⟨hparams, hbody, hq⟩
  obtain rfl : params' = params := hparams
  obtain rfl : body' = body.map (Tree.moved s.shift) := hbody
  exact hf hq

/-- Arguments are read alike on both sides; at the seam there are none behind a name. -/
theorem arguments? (h : s.At n p p')
    (hname : p.feed.items = [] → s.after ≠ [] → Token.endsInName s.before = true) :
    Agree (s.Yields (Option.map (List.map (Tree.moved s.shift))) n) (arguments? below p)
      (arguments? below p') := by
  unfold Level.arguments?
  rw [h.same.any_opensArguments_eq hname, h.same.argumentFollows_eq hname]
  split
  · next hopens =>
    obtain ⟨t, hnext, -⟩ := Progress.next?_of_peek? hopens
    have hskip := h.skip (by rw [Progress.items_next? hnext]; exact List.cons_ne_nil _ _)
    refine (hbelow.closed hskip.same).andThen fun {entries _ _} hq => ?_
    refine .ok ⟨?_, hq.mono (Nat.le_of_lt hskip.left_lt)⟩
    exact congrArg some (moved_collectArguments s.shift [] entries)
  · split
    · next hfollows =>
      obtain ⟨t, hnext, -⟩ := Progress.next?_of_peek? hfollows
      have hne : p.feed.items ≠ [] := by
        rw [Progress.items_next? hnext]
        exact List.cons_ne_nil _ _
      refine (hbelow.opened h.same hne).andThen fun {entries _ _} hq => ?_
      refine .ok ⟨?_, hq.mono h.left_lt⟩
      exact congrArg some (moved_collectArguments s.shift [] entries)
    · exact .ok ⟨rfl, h⟩

/-! ## what clings to an operand -/

/-- A block is attached alike on both sides. -/
theorem attachBlock (h : s.At n p p') (hn : n ≤ s.before.length) (tree : Tree) (t : Token) :
    Agree (s.Yields (Tree.moved s.shift) n) (attachBlock below tree t p)
      (attachBlock below (tree.moved s.shift) (t.moved s.shift) p') := by
  unfold Level.attachBlock
  simp only [Token.kind_moved]
  refine hbelow.withBlockRest h _ (by split <;> decide) fun hq => .ok ⟨?_, hq⟩
  simp [hq.last hn]

/-- A call is read alike on both sides. -/
theorem methodCall (h : s.At n p p') (hn : n ≤ s.before.length) (hu : u.isCallOperator = true)
    (hpast : u :: p.feed.items <:+ s.before) (receiver : Tree) :
    Agree (s.Yields (Tree.moved s.shift) n) (methodCall below receiver p)
      (methodCall below (receiver.moved s.shift) p') := by
  unfold Level.methodCall
  refine (h.methodName hu hpast).bind ?_
  rintro ⟨name, q⟩ ⟨_, q'⟩ ⟨⟨rfl, hq⟩, hname⟩
  refine (hbelow.arguments? hq hname).andThen fun {args r r'} hr => .ok ⟨?_, hr⟩
  cases args <;> simp [hr.last hn]

/-- A qualified name is read alike on both sides. -/
theorem qualified (h : s.At n p p') (hn : n ≤ s.before.length) (hu : u.isCallOperator = true)
    (hpast : u :: p.feed.items <:+ s.before) (tree : Tree) :
    Agree (s.Yields (Tree.moved s.shift) n) (qualified below tree p)
      (qualified below (tree.moved s.shift) p') := by
  have hcall := hbelow.methodCall h hn hu hpast tree
  unfold Level.qualified
  rw [Tree.kind_moved]
  obtain ⟨t, q, q', hnext, hnext', hitems, hq⟩ | ⟨-, hnext, -⟩ := h.same.next
  · rw [hnext, hnext']
    cases tree.kind with
    | identifier scope =>
      have hbehind := h.behind hitems hq
      simp only [Token.kind_moved, Token.text_moved]
      by_cases hkind : t.kind = .identifier
      · have hlast : t :: q.feed.items <:+ s.before := hitems ▸ h.same.within
        rw [hq.any_peek?_eq (by simp) ?_]
        · split
          · refine .ok ⟨?_, hbehind⟩
            simp [hbehind.last hn]
          · exact hcall
        · intro hnil v rest hafter
          rw [hnil] at hlast
          have hnot := Seam.not_beginsArguments (Token.endsInName_of_identifier hlast hkind) hafter
          exact (Bool.or_eq_false_iff.1 hnot).1
      · simp only [hkind, false_and, if_false]
        exact hcall
    | _ => exact hcall
  · have hfails : Level.methodCall below tree p = p.failAtEnd .methodName := by
      rw [Level.methodCall, Level.methodName, hnext]
      rfl
    rw [hnext]
    cases tree.kind <;> exact hfails ▸ .failed _ _

/-- One thing that clings to a tree is read alike on both sides. -/
theorem cling? (h : s.At n p p') (hn : n ≤ s.before.length) (inCommand : Bool) (tree : Tree) :
    Agree (Option.Rel (s.Yields (Tree.moved s.shift) n)) (cling? below inCommand tree p)
      (cling? below inCommand (tree.moved s.shift) p') := by
  unfold Level.cling?
  obtain ⟨t, q, q', hnext, hnext', hitems, hq⟩ |
    ⟨hitems, hnext, ⟨-, hnext'⟩ | ⟨t, q', hafter, hnext'⟩⟩ := h.same.next
  · have hbehind := h.behind hitems hq
    have hpast : t :: q.feed.items <:+ s.before := hitems ▸ h.same.within
    simp only [hnext, hnext', Token.kind_moved, Token.text_moved, Token.isPunct_moved,
      Token.isGlued_moved, Token.gap_moved, acceptsBlock_moved]
    split
    · next hdot =>
      have hop : t.isCallOperator = true := by
        rw [Token.isCallOperator, hdot, Bool.true_or]
      exact (hbelow.methodCall hbehind hn hop hpast tree).map fun _ _ => .some
    · split
      · next hscope =>
        have hop : t.isCallOperator = true := by
          rw [Token.isCallOperator, (Bool.and_eq_true_iff.1 hscope).1, Bool.or_true]
        exact (hbelow.qualified hbehind hn hop hpast tree).map fun _ _ => .some
      · split
        · refine (hbelow.closed hq).andThen fun {entries r r'} hr => ?_
          have hr' := hr.mono (Nat.le_of_lt hbehind.left_lt)
          have hargs := moved_collectArguments s.shift [] entries
          rw [List.map_nil] at hargs
          refine .ok (.some ⟨?_, hr'⟩)
          simp [hr'.last hn, hargs]
        · split
          · exact (hbelow.attachBlock hbehind hn tree t).map fun _ _ => .some
          · exact .ok .none
  · rw [hnext, hnext']
    exact .ok .none
  · have hbefore : s.before ≠ [] := by
      rintro hnil
      rw [hnil] at hn
      exact absurd (Nat.lt_of_lt_of_le h.left_lt hn) (Nat.not_lt_zero _)
    have hclings := Token.not_clings_of_not_continues (Seam.not_continues hbefore hafter)
    simp only [Token.clings, Bool.or_eq_false_iff] at hclings
    obtain ⟨⟨⟨hdot, hscope⟩, hindex⟩, hblock⟩ := hclings
    have hnone : (!t.gap.newline && (t.kind == .braceOpen ||
        t.kind == .blockStart && t.text == "do" && !inCommand) &&
          acceptsBlock (tree.moved s.shift)) = false := by
      cases hnewline : t.gap.newline <;> simp_all
    simp only [hnext, hnext', hdot, hscope, hindex, hnone]
    exact .ok .none

/-- All that clings to a tree is read alike on both sides. -/
theorem clinging (h : s.At n p p') (hn : n ≤ s.before.length) (inCommand : Bool) (tree : Tree) :
    Agree (s.Yields (Tree.moved s.shift) n) (clinging below inCommand tree p)
      (clinging below inCommand (tree.moved s.shift) p') := by
  induction hleft : p.left using Nat.strongRecOn generalizing tree p p' with
  | ind m ih =>
    unfold Level.clinging at ih ⊢
    rw [clingLoop, clingLoop]
    have hstep := hbelow.cling? h hn inCommand tree
    cases hx : Level.cling? below inCommand tree p with
    | error failure => exact .failed _ _
    | ok next =>
      obtain ⟨next', hx', hrel⟩ := hstep next hx
      rw [hx']
      cases hrel with
      | none => exact .ok ⟨rfl, h⟩
      | @some a b hab =>
        obtain ⟨tree', q⟩ := a
        obtain ⟨_, q'⟩ := b
        obtain ⟨rfl, hq⟩ := hab
        replace hq : s.At n q q' := hq
        simp only [h.same.left_lt_iff hq.same]
        split
        · next hlt => exact ih _ (hleft ▸ hlt) hq tree' rfl
        · exact .ok ⟨rfl, hq⟩

/-- A rule, and what clings to what it reads. -/
theorem primary (hn : n ≤ s.before.length) (inCommand : Bool)
    {x y : Except ParseFailure (Tree × Progress)}
    (h : Agree (s.Yields (Tree.moved s.shift) n) x y) :
    Agree (s.Yields (Tree.moved s.shift) n)
      (x >>= fun (tree, p) => Level.clinging below inCommand tree p)
      (y >>= fun (tree, p) => Level.clinging below inCommand tree p) :=
  h.andThen fun hq => hbelow.clinging hq hn inCommand _

/-! ## operands -/

theorem parenthesised (h : s.At n p p') (hn : n ≤ s.before.length) (t : Token) :
    Agree (s.Yields (Tree.moved s.shift) n) (parenthesised below t p)
      (parenthesised below (t.moved s.shift) p') := by
  unfold Level.parenthesised
  refine (hbelow.body h .paren (by decide)).andThen fun hq => ?_
  refine (hq.expect .paren).bind fun r r' hr => .ok ⟨?_, hr⟩
  simp [hr.last hn]

theorem array (h : s.At n p p') (hn : n ≤ s.before.length) (t : Token) :
    Agree (s.Yields (Tree.moved s.shift) n) (array below t p)
      (array below (t.moved s.shift) p') := by
  unfold Level.array
  refine (hbelow.closed h.same).andThen fun {entries q q'} hq => ?_
  have hq' := hq.mono (Nat.le_of_lt h.left_lt)
  have hargs := moved_collectArguments s.shift [] entries
  rw [List.map_nil] at hargs
  refine .ok ⟨?_, hq'⟩
  simp [hq'.last hn, hargs]

omit hbelow in
/-- A hint about entries without a key moves nothing. -/
theorem exists_notes_noteKeyless (entries : List Entry) (p : Progress) :
    ∃ notes, noteKeyless entries p = { p with notes } := by
  unfold noteKeyless
  induction entries generalizing p with
  | nil => exact ⟨p.notes, rfl⟩
  | cons e entries ih =>
    rw [List.foldl_cons]
    obtain ⟨notes, hnotes⟩ := ih _
    refine ⟨notes, hnotes.trans ?_⟩
    split
    · rfl
    · split <;> rfl

theorem braced (h : s.At n p p') (hn : n ≤ s.before.length) (t : Token) :
    Agree (s.Yields (Tree.moved s.shift) n) (braced below t p)
      (braced below (t.moved s.shift) p') := by
  unfold Level.braced
  by_cases hp : p.feed.items = []
  · -- A hash has a closer, which is not there.
    intro x hx
    rw [(h.same.peek?_eq_of_nil hp).1] at hx
    obtain ⟨⟨entries, q⟩, hentries, -⟩ := bind_eq_ok hx
    obtain ⟨_, -, hyields⟩ := hbelow.closed h.same _ hentries
    have hlt := hyields.place.left_lt
    rw [p.left_eq_length, hp] at hlt
    exact absurd hlt (Nat.not_lt_zero _)
  · rw [h.same.any_peek?_eq (by simp) fun hnil => absurd hnil hp]
    split
    · refine hbelow.withBlockRest h _ (by decide) fun hq => .ok ⟨?_, hq⟩
      simp [hq.last hn]
    · refine (hbelow.closed h.same).andThen fun {entries q q'} hq => ?_
      obtain ⟨notes, hnotes⟩ := exists_notes_noteKeyless entries q
      obtain ⟨notes', hnotes'⟩ :=
        exists_notes_noteKeyless (entries.map (Entry.moved s.shift)) q'
      have hq' := hq.mono (Nat.le_of_lt h.left_lt)
      simp only [hnotes, hnotes']
      refine .ok ⟨?_, hq'.notes _ _⟩
      simp [hq'.last hn]

/-- The body of a keyword and its `end`. -/
theorem keywordRest (h : s.At n p p') (hn : n ≤ s.before.length) (t : Token) :
    Agree (s.Yields (Tree.moved s.shift) n)
      (do
        let (body, p) ← below.statements .keyword p
        let p ← p.expect .keyword
        return ((⟨.group, t.span.through p.last, body⟩ : Tree), p))
      (do
        let (body, p) ← below.statements .keyword p'
        let p ← p.expect .keyword
        return ((⟨.group, (t.moved s.shift).span.through p.last, body⟩ : Tree), p)) := by
  refine (hbelow.body h .keyword (by decide)).andThen fun hq => ?_
  refine (hq.expect .keyword).bind fun r r' hr => .ok ⟨?_, hr⟩
  simp [hr.last hn]

/-- The body behind a keyword is read alike on both sides. -/
theorem keywordBody (h : s.At n p p') (hn : n ≤ s.before.length) (inCommand : Bool) (t : Token) :
    Agree (s.Yields (Tree.moved s.shift) n) (keywordBody below inCommand t p)
      (keywordBody below inCommand (t.moved s.shift) p') := by
  unfold Level.keywordBody
  simp only [Token.text_moved, Token.line_moved]
  by_cases hdo : t.text = "do"
  · rw [if_pos hdo, if_pos hdo]
    refine hbelow.withBlockRest h _ (by decide) fun hq => .ok ⟨?_, hq⟩
    simp [hq.last hn]
  · rw [if_neg hdo, if_neg hdo]
    by_cases hdef : t.text = "def"
    · rw [if_pos hdef, if_pos hdef]
      cases hsignature : signature t.line 0 p with
      | mk endless q =>
        cases endless with
        | true =>
          obtain ⟨q', hsignature', hq⟩ := h.signature hsignature (.inl rfl)
          simp only [hsignature', if_true]
          refine (hbelow.expression hq.same).andThen fun {body r r'} hr => ?_
          have hr' := hr.mono (Nat.le_of_lt hq.left_lt)
          refine .ok ⟨?_, hr'⟩
          simp [hr'.last hn]
        | false =>
          intro x hx
          have hq : q.feed.items ≠ [] := by
            obtain ⟨⟨body, r⟩, hbody, hrest⟩ := bind_eq_ok hx
            obtain ⟨z, hz, -⟩ := bind_eq_ok hrest
            exact hbelow.items_ne_nil_of_closer (by decide) hbody hz
          obtain ⟨q', hsignature', hq'⟩ := h.signature hsignature (.inr hq)
          simp only [hsignature']
          exact hbelow.keywordRest hq' hn t x hx
    · rw [if_neg hdef, if_neg hdef]
      exact hbelow.keywordRest h hn t

theorem arrowLambda (h : s.At n p p') (hn : n ≤ s.before.length) (t : Token) :
    Agree (s.Yields (Tree.moved s.shift) n) (arrowLambda below t p)
      (arrowLambda below (t.moved s.shift) p') := by
  unfold Level.arrowLambda
  refine .bind_of_ok fun (params, q) x hparams hrest => ?_
  have hne : q.feed.items ≠ [] := by
    intro hnil
    simp only [Progress.next?_of_items_nil hnil] at hrest
    cases hrest
  obtain ⟨q', hparams', hq⟩ := h.lambdaParameters hparams hne
  refine ⟨_, hparams', ?_⟩
  obtain ⟨opener, r, r', hnext, hnext', hitems, hr⟩ | ⟨hnil, -⟩ := hq.same.next
  · have hbody : ∀ c, c ≠ .eof → Agree (s.Yields (Tree.moved s.shift) n)
        (do
          let rest ← Level.blockRest below c r
          return ((⟨.callable (params ++ rest.1), t.span.through rest.2.2.last, rest.2.1⟩ : Tree),
            rest.2.2))
        (do
          let rest ← Level.blockRest below c r'
          return ((⟨.callable (params ++ rest.1), (t.moved s.shift).span.through rest.2.2.last,
            rest.2.1⟩ : Tree), rest.2.2)) := by
      intro c hc
      refine hbelow.withBlockRest (hq.behind hitems hr) c hc fun hz => .ok ⟨?_, hz⟩
      simp [hz.last hn]
    simp only [hnext, hnext', Token.kind_moved, Token.text_moved]
    split
    · exact hbody .brace (by decide)
    · split
      · exact hbody .keyword (by decide)
      · exact .failed _ _
  · exact absurd hnil hne

/-- Labelled entries are read alike on both sides, one after the other. -/
theorem labelLoop (h : s.Same p p') (inCommand : Bool) (done : List Tree) :
    Agree (s.Yields (List.map (Tree.moved s.shift)) p.left)
      (labelLoop (below.entry inCommand) done p)
      (labelLoop (below.entry inCommand) (done.map (Tree.moved s.shift)) p') := by
  induction hleft : p.left using Nat.strongRecOn generalizing done p p' with
  | ind m ih =>
    rw [Level.labelLoop, Level.labelLoop]
    cases hx : below.entry inCommand p with
    | error failure => exact .failed _ _
    | ok read =>
      obtain ⟨e, q⟩ := read
      obtain ⟨⟨_, q'⟩, hx', rfl, hq⟩ := hbelow.entry h _ hx
      replace hq : s.At p.left q q' := hq
      have hmore := hq.same.anotherLabel_eq (Nat.lt_of_lt_of_le hq.left_lt h.left_le)
      have hdone : s.Yields (List.map (Tree.moved s.shift)) m ((e.tree :: done).reverse, q)
          (((e.moved s.shift).tree :: done.map (Tree.moved s.shift)).reverse, q') :=
        ⟨by simp, hleft ▸ hq⟩
      simp only [hx', hmore]
      cases hlabel : (q.peek?.any (·.isPunct ",") && q.peekSecond?.any (·.kind == .label)) with
      | false => exact .ok hdone
      | true =>
        obtain ⟨t, hnext, -⟩ := Progress.next?_of_peek? (Bool.and_eq_true_iff.1 hlabel).1
        have hskip := hq.skip (by rw [Progress.items_next? hnext]; exact List.cons_ne_nil _ _)
        simp only [Bool.true_and, decide_eq_true_eq, h.left_lt_iff hskip.same]
        split
        · next hlt =>
          have hrest := ih _ (hleft ▸ hlt) hskip.same (e.tree :: done) rfl
          rw [List.map_cons, ← Entry.tree_moved] at hrest
          exact hrest.mono_left (hleft ▸ Nat.le_of_lt hlt)
        · exact .ok hdone

theorem bareHash (h : s.Same p p') (inCommand : Bool) :
    Agree (s.Yields (Tree.moved s.shift) p.left) (bareHash below inCommand p)
      (bareHash below inCommand p') := by
  unfold Level.bareHash
  refine (hbelow.labelLoop h inCommand []).andThen fun {pairs q q'} hq => ?_
  have hlast := hq.last h.left_le
  cases pairs with
  | nil => exact .ok ⟨by simp [hlast], hq⟩
  | cons first rest => exact .ok ⟨by simp [hlast], hq⟩

/-- Whether an operand follows on the line is not asked at the seam: something is awaited. -/
theorem unary (h : s.At n p p') (hn : n ≤ s.before.length) (ctx : Context)
    (hpast : t :: p.feed.items <:+ s.before) (ht : t.finishes = false) :
    Agree (s.Yields (Tree.moved s.shift) n) (unary below ctx t p)
      (unary below ctx (t.moved s.shift) p') := by
  unfold Level.unary
  rw [h.same.operandFollows_eq hpast ht]
  split
  · refine (hbelow.operand h.same).andThen fun {operand q q'} hq => ?_
    have hq' := hq.mono (Nat.le_of_lt h.left_lt)
    refine .ok ⟨?_, hq'⟩
    simp [hq'.last hn]
  · exact .ok ⟨by simp, h⟩

/-- A jump is read alike on both sides, with or without a value. -/
theorem jump (h : s.At n p p') (hn : n ≤ s.before.length) (ctx : Context)
    (hpast : t :: p.feed.items <:+ s.before) (ht : t.finishes = false) :
    Agree (s.Yields (Tree.moved s.shift) n) (jump below ctx t p)
      (jump below ctx (t.moved s.shift) p') := by
  unfold Level.jump
  rw [h.same.operandFollows_eq hpast ht]
  simp only [Token.text_moved]
  split
  · refine (hbelow.expression h.same).andThen fun {value q q'} hq => ?_
    have hq' := hq.mono (Nat.le_of_lt h.left_lt)
    refine .ok ⟨?_, hq'⟩
    simp [hq'.last hn]
  · exact .ok ⟨by simp, h⟩

theorem named (h : s.At n p p') (hn : n ≤ s.before.length)
    (hpast : t :: p.feed.items <:+ s.before) (ht : t.kind = .identifier) :
    Agree (s.Yields (Tree.moved s.shift) n) (named below t p)
      (named below (t.moved s.shift) p') := by
  unfold Level.named
  refine (hbelow.arguments? h fun hnil _ => ?_).andThen fun {args q q'} hq => ?_
  · rw [hnil] at hpast
    exact Token.endsInName_of_identifier hpast ht
  · cases args with
    | none => exact .ok ⟨by simp, hq⟩
    | some args => exact .ok ⟨by simp [hq.last hn], hq⟩

/-- A word is read alike on both sides, whatever the word means. -/
theorem word (h : s.At n p p') (hn : n ≤ s.before.length) (ctx : Context)
    (hpast : t :: p.feed.items <:+ s.before) (ht : t.kind = .identifier) :
    Agree (s.Yields (Tree.moved s.shift) n) (word below ctx t p)
      (word below ctx (t.moved s.shift) p') := by
  have hvalue : ∀ literal : Literal, Agree (s.Yields (Tree.moved s.shift) n)
      (Level.clinging below ctx.inCommand (.leaf (.literal literal) t.span) p)
      (Level.clinging below ctx.inCommand (.leaf (.literal literal) (t.moved s.shift).span)
        p') := by
    intro literal
    rw [Token.span_moved, ← Tree.moved_leaf]
    exact hbelow.clinging h hn _ _
  have hjump : t.text ∈ ["return", "next", "break", "not"] → t.finishes = false := by
    intro hmem
    simp [Token.finishes, ht, hmem]
  unfold Level.word
  simp only [Token.text_moved]
  split
  · exact hvalue .nil
  · exact hvalue .true
  · exact hvalue .false
  · next htext => exact hbelow.jump h hn ctx hpast (hjump (by simp [htext]))
  · next htext => exact hbelow.jump h hn ctx hpast (hjump (by simp [htext]))
  · next htext => exact hbelow.jump h hn ctx hpast (hjump (by simp [htext]))
  · next htext => exact hbelow.jump h hn ctx hpast (hjump (by simp [htext]))
  · exact hbelow.primary hn ctx.inCommand (hbelow.named h hn hpast ht)

/-- What a mark begins is read alike on both sides. -/
theorem punctuated (h : s.At n p p') (hn : n ≤ s.before.length) (ctx : Context)
    (hpast : t :: p.feed.items <:+ s.before) (ht : t.kind = .punctuation) :
    Agree (s.Yields (Tree.moved s.shift) n) (punctuated below ctx t p)
      (punctuated below ctx (t.moved s.shift) p') := by
  unfold Level.punctuated
  simp only [Token.text_moved]
  split
  · exact hbelow.primary hn ctx.inCommand (hbelow.parenthesised h hn t)
  · exact hbelow.primary hn ctx.inCommand (hbelow.array h hn t)
  · exact hbelow.primary hn ctx.inCommand (hbelow.arrowLambda h hn t)
  · split
    · next hunary =>
      have hmem : t.text ∈ unaryOperators := by simpa using hunary
      have hpunct : t.isPunct t.text = true := by simp [Token.isPunct, ht]
      have htext : ∀ text ∈ unaryOperators, text ∉ [")", "]", ";"] := by decide
      exact hbelow.unary h hn ctx hpast (Token.not_finishes_of_isPunct hpunct (htext _ hmem))
    · rw [Token.span_moved, ← Tree.moved_leaf]
      exact hbelow.clinging (h.notes _ _) hn _ _

/-- An operand is read alike on both sides, whatever begins it. -/
theorem operandAbove (h : s.Same p p') (ctx : Context) :
    Agree (s.Yields (Tree.moved s.shift) p.left) (operandAbove below ctx p)
      (operandAbove below ctx p') := by
  unfold Level.operandAbove
  obtain ⟨t, q, q', hnext, hnext', hitems, hq⟩ | ⟨-, hnext, -⟩ := h.next
  · have hbehind : s.At p.left q q' := ⟨hq, Progress.left_lt_of_items hitems⟩
    have hn := h.left_le
    have hpast : t :: q.feed.items <:+ s.before := hitems ▸ h.within
    have hleaf := hbelow.clinging hbehind hn ctx.inCommand (.leaf (.identifier t.text) t.span)
    rw [Tree.moved_leaf] at hleaf
    have hliteral := hbelow.primary hn ctx.inCommand (hbelow.literal hbehind hpast)
    simp only [hnext, hnext', Token.isCloser_moved, Token.kind_moved, Token.text_moved,
      Token.span_moved]
    split
    · exact .failed _ _
    · cases hkind : t.kind with
      | punctuation => exact hbelow.punctuated hbehind hn ctx hpast hkind
      | braceOpen => exact hbelow.primary hn ctx.inCommand (hbelow.braced hbehind hn t)
      | blockStart =>
        exact hbelow.primary hn ctx.inCommand (hbelow.keywordBody hbehind hn ctx.inCommand t)
      | label => exact hbelow.primary hn ctx.inCommand (hbelow.bareHash h ctx.inCommand)
      | identifier => exact hbelow.word hbehind hn ctx hpast hkind
      | string | symbol | command | regex | words | numeral => exact hliteral
      | comment | other | braceClose | blockEnd => exact hleaf
  · rw [hnext]
    exact .failed _ _

/-! ## expressions and entries -/

/-- Operands are read alike on both sides, one after the other. -/
theorem operandLoop (h : s.At n p p') (hn : n ≤ s.before.length) (ctx : Context)
    (done : List Tree) :
    Agree (s.Yields (List.map (Tree.moved s.shift)) n) (operandLoop (below.operand ctx) ctx done p)
      (operandLoop (below.operand ctx) ctx (done.map (Tree.moved s.shift)) p') := by
  induction hleft : p.left using Nat.strongRecOn generalizing done p p' with
  | ind m ih =>
    rw [Level.operandLoop, Level.operandLoop]
    obtain ⟨t, q, q', hnext, hnext', hitems, hq⟩ |
      ⟨hitems, hnext, ⟨-, hnext'⟩ | ⟨t, q', hafter, hnext'⟩⟩ := h.same.next
    · have hbehind := h.behind hitems hq
      simp only [hnext, hnext', Token.gap_moved, Token.isBinary_moved]
      by_cases hends : (t.gap.newline || !t.isBinary ctx) = true
      · rw [if_pos hends, if_pos hends]
        exact .ok ⟨by simp, h⟩
      · rw [if_neg hends, if_neg hends]
        have hbinary : t.isBinary ctx = true := by simp_all
        rw [hq.all_peek?_eq (by simp) fun hnil =>
          Seam.after_eq_nil (l := t) (hnil ▸ hitems ▸ h.same.within)
            (Token.not_finishes_of_isBinary hbinary)]
        split
        · exact .ok ⟨by simp, hbehind⟩
        · cases hx : below.operand ctx q with
          | error failure => exact .failed _ _
          | ok read =>
            obtain ⟨tree, r⟩ := read
            obtain ⟨⟨_, r'⟩, hx', rfl, hr⟩ := hbelow.operand hq _ hx
            replace hr : s.At n r r' := hr.mono (Nat.le_of_lt hbehind.left_lt)
            simp only [hx', h.same.left_lt_iff hr.same, ← List.map_cons]
            split
            · next hlt => exact ih _ (hleft ▸ hlt) hr (tree :: done) rfl
            · exact .ok ⟨by simp, hr⟩
    · rw [hnext, hnext']
      exact .ok ⟨by simp, h⟩
    · have hbefore : s.before ≠ [] :=
        List.ne_nil_of_length_pos (Nat.lt_of_lt_of_le (Nat.zero_lt_of_lt h.left_lt) hn)
      have hends := Token.binary_of_not_continues (Seam.not_continues hbefore hafter) ctx
      simp only [hnext, hnext', if_pos hends]
      exact .ok ⟨by simp, h⟩

/-- An expression is read alike on both sides, with its guards. -/
theorem expressionAbove (h : s.Same p p') (ctx : Context) :
    Agree (s.Yields (Tree.moved s.shift) p.left) (expressionAbove below ctx p)
      (expressionAbove below ctx p') := by
  unfold Level.expressionAbove
  refine (hbelow.operand h).andThen fun {first q q'} hq => ?_
  refine (hbelow.operandLoop hq h.left_le ctx []).andThen fun {rest r r'} hr => ?_
  simp only [List.isEmpty_map]
  split
  · exact .ok ⟨rfl, hr⟩
  · exact .ok ⟨by simp [hr.last h.left_le], hr⟩

/-- An entry is read alike on both sides. -/
theorem entryAbove (h : s.Same p p') (inCommand : Bool) :
    Agree (s.Yields (Entry.moved s.shift) p.left) (entryAbove below inCommand p)
      (entryAbove below inCommand p') := by
  unfold Level.entryAbove
  obtain ⟨t, q, q', hnext, hnext', hitems, hq⟩ | ⟨-, hnext, -⟩ := h.next
  · have hbehind : s.At p.left q q' := ⟨hq, Progress.left_lt_of_items hitems⟩
    simp only [hnext, hnext', Token.kind_moved, Token.value_moved, Token.span_moved]
    split
    · next hlabel =>
      have hawaits : t.finishes = false := by simp [Token.finishes, hlabel]
      rw [hq.all_peek?_eq (by simp) fun hnil =>
        Seam.after_eq_nil (l := t) (hnil ▸ hitems ▸ h.within) hawaits]
      split
      · exact .ok ⟨by simp [Entry.moved], hbehind⟩
      · refine (hbelow.expression hq).andThen fun {value r r'} hr => ?_
        exact .ok ⟨by simp [Entry.moved], hr.mono (Nat.le_of_lt hbehind.left_lt)⟩
    · refine (hbelow.expression h).andThen fun {tree r r'} hr => ?_
      have hbefore : s.before ≠ [] :=
        List.ne_nil_of_length_pos (Nat.lt_of_lt_of_le (Nat.zero_lt_of_lt hr.left_lt) h.left_le)
      rw [hr.same.any_peek?_eq (by simp) fun _ u rest hafter =>
        (Token.separates_of_not_continues (Seam.not_continues hbefore hafter)).2]
      split
      · next hrocket =>
        obtain ⟨u, hnext₂, -⟩ := Progress.next?_of_peek? hrocket
        have hskip := hr.skip (by rw [Progress.items_next? hnext₂]; exact List.cons_ne_nil _ _)
        refine (hbelow.expression hskip.same).andThen fun {value z z'} hz => ?_
        exact .ok ⟨by simp [Entry.moved], hz.mono (Nat.le_of_lt hskip.left_lt)⟩
      · exact .ok ⟨rfl, hr⟩
  · rw [hnext]
    exact .failed _ _

/-- Entries up to a closer. -/
theorem closedLoop (h : s.Same p p') (inCommand : Bool) (c : Closer) (done : List Entry) :
    Agree (s.Yields (List.map (Entry.moved s.shift)) p.left)
      (entryLoop (Level.entryAbove below inCommand) (some c) done p)
      (entryLoop (Level.entryAbove below inCommand) (some c) (done.map (Entry.moved s.shift))
        p') := by
  induction hleft : p.left using Nat.strongRecOn generalizing done p p' with
  | ind m ih =>
    rw [entryLoop, entryLoop]
    obtain ⟨t, q, q', hnext, hnext', hitems, hq⟩ | ⟨-, hnext, -⟩ := h.next
    · simp only [entriesEnd?, hnext, hnext', Closer.matches_moved, Token.isCloser_moved]
      by_cases hmatch : c.matches t = true
      · simp only [if_pos hmatch]
        exact .ok ⟨by simp, hq, hleft ▸ Progress.left_lt_of_items hitems⟩
      · by_cases hcloser : t.isCloser = true
        · simp only [if_neg hmatch, if_pos hcloser]
          exact .failed _ _
        · simp only [if_neg hmatch, if_neg hcloser]
          cases hx : Level.entryAbove below inCommand p with
          | error failure => exact .failed _ _
          | ok read =>
            obtain ⟨e, r⟩ := read
            obtain ⟨⟨_, r'⟩, hx', rfl, hr⟩ := hbelow.entryAbove h inCommand _ hx
            replace hr : s.At p.left r r' := hr
            have hloop : ∀ {z z'}, s.At p.left z z' → Agree _ _ _ := fun {z z'} hz =>
              (ih z.left (hleft ▸ hz.left_lt) hz.same (e :: done) rfl).mono_left
                (hleft ▸ Nat.le_of_lt hz.left_lt)
            simp only [hx']
            by_cases hend : r.feed.items = []
            · -- The closer is still to come, and does not.
              have hnone := Progress.next?_of_items_nil hend
              simp only [afterEntry, hnone, Bool.true_and, decide_eq_true_eq, if_pos hr.left_lt]
              rw [entryLoop]
              simp only [entriesEnd?, hnone]
              exact .failed _ _
            · have hafter := hr.afterEntry (c := some c) (fun hnil => absurd hnil hend)
              cases hy : Level.afterEntry (some c) r with
              | error failure => exact .failed _ _
              | ok read =>
                obtain ⟨more, z⟩ := read
                obtain ⟨⟨_, z'⟩, hy', rfl, hz⟩ := hafter _ hy
                replace hz : s.At p.left z z' := hz
                simp only [hy', h.left_lt_iff hz.same]
                split
                · exact hloop hz
                · exact .ok ⟨by simp, hleft ▸ hz⟩
    · simp only [entriesEnd?, hnext]
      exact .failed _ _

omit hbelow in
/-- Another entry follows where there is a comma. -/
theorem comma_of_afterEntry {q : Progress} (h : afterEntry none p = .ok (true, q)) :
    ∃ t, p.feed.items = t :: q.feed.items ∧ t.isPunct "," = true := by
  unfold afterEntry at h
  cases hnext : p.next? with
  | none =>
    rw [hnext] at h
    cases h
  | some next =>
    obtain ⟨t, r⟩ := next
    simp only [hnext] at h
    split at h
    · next hcomma =>
      obtain ⟨-, rfl⟩ := Prod.mk.inj (Except.ok.inj h)
      exact ⟨t, Progress.items_next? hnext, hcomma⟩
    · cases h

/-- Entries as long as commas follow. -/
theorem openLoop (h : s.Same p p') (hp : p.feed.items = [] → s.after = []) (inCommand : Bool)
    (done : List Entry) :
    Agree (s.Yields (List.map (Entry.moved s.shift)) (p.left + 1))
      (entryLoop (Level.entryAbove below inCommand) none done p)
      (entryLoop (Level.entryAbove below inCommand) none (done.map (Entry.moved s.shift)) p') := by
  induction hleft : p.left using Nat.strongRecOn generalizing done p p' with
  | ind m ih =>
    have hhere : s.At (m + 1) p p' := ⟨h, by rw [hleft]; exact Nat.lt_succ_self m⟩
    rw [entryLoop, entryLoop]
    obtain ⟨t, q, q', hnext, hnext', hitems, hq⟩ |
      ⟨hitems, hnext, ⟨-, hnext'⟩ | ⟨t, q', hafter, hnext'⟩⟩ := h.next
    · simp only [entriesEnd?, hnext, hnext', Token.isPunct_moved, Token.isCloser_moved]
      by_cases hends : (t.isCloser || t.isPunct ";") = true
      · simp only [if_pos hends]
        exact .ok ⟨by simp, hhere⟩
      · simp only [if_neg hends]
        cases hx : Level.entryAbove below inCommand p with
        | error failure => exact .failed _ _
        | ok read =>
          obtain ⟨e, r⟩ := read
          obtain ⟨⟨_, r'⟩, hx', rfl, hr⟩ := hbelow.entryAbove h inCommand _ hx
          replace hr : s.At p.left r r' := hr
          have hbefore : s.before ≠ [] :=
            List.ne_nil_of_length_pos (Nat.lt_of_lt_of_le (Nat.zero_lt_of_lt hr.left_lt) h.left_le)
          have hagree := hr.afterEntry (c := none) fun _ => ⟨rfl, fun t rest hafter =>
            (Token.separates_of_not_continues (Seam.not_continues hbefore hafter)).1⟩
          simp only [hx']
          cases hy : afterEntry none r with
          | error failure => exact .failed _ _
          | ok read =>
            obtain ⟨more, z⟩ := read
            obtain ⟨⟨more', z'⟩, hy', hsame, hz⟩ := hagree _ hy
            obtain rfl : more' = more := hsame
            replace hz : s.At p.left z z' := hz
            simp only [hy', h.left_lt_iff hz.same]
            split
            · next hmore =>
              have hlt : z.left < m := hleft ▸ hz.left_lt
              have hnil : z.feed.items = [] → s.after = [] := by
                intro hnil
                rw [(Bool.and_eq_true_iff.1 hmore).1] at hy
                obtain ⟨u, hitems₂, hcomma⟩ := comma_of_afterEntry hy
                have hlast : [u] <:+ s.before := hnil ▸ hitems₂ ▸ hr.same.within
                exact Seam.after_eq_nil hlast (Token.not_finishes_of_isPunct hcomma (by decide))
              exact (ih _ hlt hz.same hnil (e :: done) rfl).mono_left (by omega)
            · exact .ok ⟨by simp, hz.mono (by rw [hleft]; exact Nat.le_succ m)⟩
    · simp only [entriesEnd?, hnext, hnext']
      exact .ok ⟨by simp, hhere⟩
    · rw [hp hitems] at hafter
      cases hafter

/-! ## statements -/

/-- Statements are read as they are without what is behind the seam, and then the others are. -/
theorem statementLoop (h : s.Same p p') {c : Closer} {done trees : List Tree} {q : Progress}
    (hx : statementLoop (below.expression .statement) c done p = .ok (trees, q)) :
    q.left ≤ p.left ∧
      (c = .eof ∧ q.feed.items = [] ∨ ∃ t r, q.next? = some (t, r) ∧ c.matches t = true) ∧
      ∃ q', s.Same q q' ∧
        statementLoop (below.expression .statement) c (done.map (Tree.moved s.shift)) p' =
          statementLoop (below.expression .statement) c (trees.map (Tree.moved s.shift)).reverse
            q' := by
  induction hleft : p.left using Nat.strongRecOn generalizing done p p' with
  | ind m ih =>
    rw [statementLoop_eq] at hx
    obtain ⟨t, r, r', hnext, hnext', hitems, hr⟩ | ⟨hitems, hnext, -⟩ := h.next
    · simp only [hnext] at hx
      by_cases hmatch : c.matches t = true
      · rw [if_pos hmatch] at hx
        obtain ⟨rfl, rfl⟩ := Prod.mk.inj (Except.ok.inj hx)
        exact ⟨Nat.le_of_eq hleft, .inr ⟨t, r, hnext, hmatch⟩, p', h, by simp⟩
      · rw [statementLoop_eq (p := p')]
        simp only [hnext', Closer.matches_moved, Token.isCloser_moved,
          Token.separatesStatements_moved, if_neg hmatch] at hx ⊢
        by_cases hcloser : t.isCloser = true
        · rw [if_pos hcloser] at hx
          cases hx
        · rw [if_neg hcloser] at hx ⊢
          by_cases hseparates : t.separatesStatements = true
          · rw [if_pos hseparates] at hx ⊢
            have hlt := Progress.left_lt_of_items hitems
            obtain ⟨hle, hends⟩ := ih _ (hleft ▸ hlt) hr hx rfl
            exact ⟨by omega, hends⟩
          · rw [if_neg hseparates] at hx ⊢
            cases hy : below.expression .statement p with
            | error failure =>
              rw [hy] at hx
              cases hx
            | ok read =>
              obtain ⟨tree, z⟩ := read
              obtain ⟨⟨_, z'⟩, hy', rfl, hz⟩ := hbelow.expression h _ hy
              replace hz : s.At p.left z z' := hz
              simp only [hy, if_pos hz.left_lt] at hx
              simp only [hy', if_pos ((h.left_lt_iff hz.same).2 hz.left_lt), ← List.map_cons]
              obtain ⟨hle, hends⟩ := ih _ (hleft ▸ hz.left_lt) hz.same hx rfl
              exact ⟨by have := hz.left_lt; omega, hends⟩
    · simp only [hnext] at hx
      split at hx
      · next heof =>
        obtain ⟨rfl, rfl⟩ := Prod.mk.inj (Except.ok.inj hx)
        exact ⟨Nat.le_of_eq hleft, .inl ⟨heof, hitems⟩, p', h, by simp⟩
      · cases hx

end Sews

/-! ## levels -/

/-- A level above one that sews does so as well. -/
theorem Sews.above {below : Level} (hbelow : below.Sews) : (above below).Sews where
  statements {s c p p'} hc h := by
    rintro ⟨trees, q⟩ hx
    obtain ⟨hle, hends, q', hq, hx'⟩ := hbelow.statementLoop h hx
    refine ⟨(trees.map (Tree.moved s.shift), q'), ?_, rfl, hq, Nat.lt_succ_of_le hle⟩
    refine Eq.trans hx' ?_
    rw [statementLoop_eq]
    obtain ⟨t, r, r', hnext, hnext', hitems, -⟩ |
      ⟨hnil, hnext, ⟨-, hnext'⟩ | ⟨t, r', hafter, -⟩⟩ := hq.next
    · obtain ⟨-, hnil⟩ | ⟨u, z, hnext₂, hmatch⟩ := hends
      · rw [hitems] at hnil
        cases hnil
      · obtain ⟨rfl, -⟩ := Prod.mk.inj (Option.some.inj (hnext₂.symm.trans hnext))
        simp only [hnext', Closer.matches_moved, if_pos hmatch, List.reverse_reverse]
    · obtain ⟨rfl, -⟩ | ⟨u, z, hnext₂, -⟩ := hends
      · simp only [hnext', if_true, List.reverse_reverse]
      · rw [hnext] at hnext₂
        cases hnext₂
    · obtain ⟨rfl, -⟩ | ⟨u, z, hnext₂, -⟩ := hends
      · rw [hc rfl] at hafter
        cases hafter
      · rw [hnext] at hnext₂
        cases hnext₂
  closed h := hbelow.closedLoop h _ _ []
  opened h hp := hbelow.openLoop h (fun hnil => absurd hnil hp) _ []
  entry h := hbelow.entryAbove h _
  expression h := hbelow.expressionAbove h _
  operand h := hbelow.operandAbove h _

/-- The bottom level reads nothing, so there is nothing to sew. -/
theorem sews_bottom : bottom.Sews where
  statements _ _ := .failed _ _
  closed _ := .failed _ _
  opened _ _ := .failed _ _
  entry _ := .failed _ _
  expression _ := .failed _ _
  operand _ := .failed _ _

/-- However many levels there are, the rules read of the tokens before a seam what they read
without the others. -/
theorem sews_levelAt (n : Nat) : (levelAt n).Sews := by
  induction n with
  | zero => exact { sews_bottom with entry := fun h => sews_bottom.entryAbove h _ }
  | succ n ih => exact ih.above

end Level

end ConnectorAudit
