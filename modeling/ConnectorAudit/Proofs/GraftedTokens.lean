import ConnectorAudit.Proofs.Transplants

/-!
# The tokens of a graft

Literals of a stretch, with the code inside of them, and hence all tokens.  The body
of a literal is read in turns, of a character, an escape or a segment each.  A turn
in the one text is one in the other (`Graft.MirrorsSegments.turn`), and so is a run of
them.

* `Graft.MirrorsSegments.body`, `Graft.MirrorsTokens.segmentWith`: bodies and segments;
* `Graft.MirrorsSegments.tokenWith`: a token, of whatever kind;
* `Graft.mirrorsTokens_tokenAt`: tokens of all levels.
-/

namespace ConnectorAudit

/-! ## turns -/

/-- What reading the next part of a body comes to. -/
inductive Quoting.Turn where
  | failed (failure : Failure)
  /-- The closing delimiter was read. -/
  | closed (body : Quoted) (r : Reader)
  /-- The body goes on. -/
  | on (depth : Nat) (body : Quoted) (r : Reader)

/-- Reads the next part of a body: a character, an escape, a segment or the closing delimiter. -/
def Quoting.turn (q : Quoting) (segment : SegmentReader) (depth : Nat) (body : Quoted)
    (r : Reader) : Turn :=
  match r.bump with
  | none => .failed (r.unterminated q.what q.start)
  | some (c, s) =>
    if c = '\\' then
      match s.bump with
      | none => .failed (s.unterminated q.what q.start)
      | some (e, t) => .on depth (Quoted.pushEscaped q body e) t
    else if q.interpolates && c == '#' && s.rest.head? == some '{' then
      match segment q (s.advance 1) with
      | .error failure => .failed failure
      | .ok (tokens, t) =>
        if t.left < r.left then
          .on depth { body with nested := body.nested ++ tokens, dynamic := true } t
        else .failed (t.unterminated q.what q.start)
    else
      let sigil := s.rest.head? == some '@' || s.rest.head? == some '$'
      let body :=
        if q.interpolates && c == '#' && sigil then { body with dynamic := true } else body
      if q.opener = some c then .on (depth + 1) (body.push c) s
      else if c = q.closer then
        match depth with
        | 0 => .closed body s
        | depth + 1 => .on depth (body.push c) s
      else .on depth (body.push c) s

/-- A body goes on with another: its tokens are kept, and if no code is met, none are added. -/
structure Quoted.Extends (body b : Quoted) : Prop where
  nested : body.nested <+: b.nested
  static : b.dynamic = false → body.dynamic = false ∧ b.nested = body.nested

namespace Quoted.Extends

variable {a b c : Quoted}

/-- The same nested tokens are extended, if nothing static becomes dynamic. -/
theorem of_same (hnested : b.nested = a.nested) (hdynamic : b.dynamic = false → a.dynamic = false) :
    a.Extends b :=
  ⟨hnested ▸ List.prefix_refl _, fun hb => ⟨hdynamic hb, hnested⟩⟩

/-- Extensions add up. -/
theorem trans (hab : a.Extends b) (hbc : b.Extends c) : a.Extends c where
  nested := hab.nested.trans hbc.nested
  static hc := by
    obtain ⟨hb, hcb⟩ := hbc.static hc
    obtain ⟨ha, hba⟩ := hab.static hb
    exact ⟨ha, hcb.trans hba⟩

end Quoted.Extends

namespace Quoting

variable {q : Quoting} {segment : SegmentReader} {depth : Nat} {body : Quoted} {r : Reader}

/-- The body of a quotation is read turn by turn. -/
theorem body_eq_turn :
    q.body segment depth body r =
      match q.turn segment depth body r with
      | .failed failure => .error failure
      | .closed body s => .ok (body, s)
      | .on depth body s => q.body segment depth body s := by
  rw [body_eq, turn]
  cases r.bump with
  | none => rfl
  | some next =>
    obtain ⟨c, s⟩ := next
    simp only
    split
    · cases s.bump <;> rfl
    · split
      · rcases segment q (s.advance 1) with _ | ⟨tokens, t⟩
        · rfl
        · simp only
          split <;> rfl
      · split
        · rfl
        · split
          · cases depth <;> rfl
          · rfl

/-- A turn that does not fail leaves fewer characters, and keeps what the body holds. -/
def Turn.Keeps (r : Reader) (body : Quoted) : Turn → Prop
  | .failed _ => True
  | .closed b s => s.left < r.left ∧ b.nested = body.nested ∧ body.Extends b
  | .on _ b s => s.left < r.left ∧ body.Extends b

/-- A turn leaves less to read and only adds to what was read. -/
theorem keeps_turn (q : Quoting) (segment : SegmentReader) (depth : Nat) (body : Quoted)
    (r : Reader) : (q.turn segment depth body r).Keeps r body := by
  unfold turn
  split
  · trivial
  · next c s hb =>
    have hlt := Reader.left_bump hb
    split
    · split
      · trivial
      · next e t hb₂ =>
        refine ⟨Nat.lt_trans (Reader.left_bump hb₂) hlt, ?_⟩
        unfold Quoted.pushEscaped
        split
        · exact .of_same rfl id
        · split <;> exact .of_same rfl id
    · split
      · split
        · trivial
        · split
          · next hleft => exact ⟨hleft, List.prefix_append _ _, fun h => Bool.noConfusion h⟩
          · trivial
      · -- A sigil makes the body dynamic, but adds no tokens.
        simp only
        generalize (q.interpolates && c == '#' &&
          (s.rest.head? == some '@' || s.rest.head? == some '$')) = dynamic
        have hpushed : body.Extends
            ((if dynamic = true then { body with dynamic := true } else body).push c) := by
          cases dynamic with
          | false => exact .of_same rfl id
          | true => exact .of_same rfl (fun h => Bool.noConfusion h)
        split
        · exact ⟨hlt, hpushed⟩
        · split
          · cases depth with
            | zero =>
              cases dynamic with
              | false => exact ⟨hlt, rfl, .of_same rfl id⟩
              | true => exact ⟨hlt, rfl, .of_same rfl (fun h => Bool.noConfusion h)⟩
            | succ depth => exact ⟨hlt, hpushed⟩
          · exact ⟨hlt, hpushed⟩

/-- A body leaves less to read and only adds to what was read. -/
theorem keeps_body {b : Quoted} {s : Reader} (h : q.body segment depth body r = .ok (b, s)) :
    s.left < r.left ∧ body.Extends b := by
  induction hn : r.left using Nat.strongRecOn generalizing depth body r with
  | ind n ih =>
    have hkeeps := keeps_turn q segment depth body r
    rw [body_eq_turn] at h
    generalize q.turn segment depth body r = turn at h hkeeps
    cases turn with
    | failed => cases h
    | closed body' s' =>
      obtain ⟨rfl, rfl⟩ := Prod.mk.inj (Except.ok.inj h)
      exact ⟨hn ▸ hkeeps.1, hkeeps.2.2⟩
    | on depth' body' s' =>
      obtain ⟨hlt, hkept⟩ := ih _ (hn ▸ hkeeps.1) h rfl
      exact ⟨Nat.lt_trans hlt (hn ▸ hkeeps.1), hkeeps.2.trans hkept⟩

end Quoting

/-! ## putting results together -/

def Quoted.moved (σ : Shift) (body : Quoted) : Quoted :=
  { body with nested := body.nested.map (Token.moved σ) }

namespace Graft

variable {g : Graft}

/-- Fewer tokens are settled as well. -/
theorem Settled.of_subset {ts us : List Token} (h : g.Settled us)
    (hsub : Token.preorderAll ts ⊆ Token.preorderAll us) : g.Settled ts :=
  h.imp id fun hall t ht => hall t (hsub ht)

theorem Settled.of_append_left {ts us : List Token} (h : g.Settled (ts ++ us)) : g.Settled ts :=
  h.of_subset (by rw [Token.preorderAll_append]; exact List.subset_append_left _ _)

theorem Settled.of_append_right {ts us : List Token} (h : g.Settled (ts ++ us)) : g.Settled us :=
  h.of_subset (by rw [Token.preorderAll_append]; exact List.subset_append_right _ _)

/-- What is nested in settled tokens is settled. -/
theorem Settled.nested {t : Token} (h : g.Settled [t]) : g.Settled t.nested := by
  refine h.of_subset ?_
  rw [Token.preorderAll, Token.preorder_eq]
  exact fun u hu => List.mem_append_left _ (List.mem_cons_of_mem t hu)

/-- What is made of a result of the stretch, if it is made alike, and the one that it is made of
ends no earlier and has no more tokens. -/
theorem Mirrors.bind {α β : Type} {tokens : α → List Token} {move : α → α}
    {tokens' : β → List Token} {move' : β → β} {x y : Except Failure (α × Reader)}
    {f f' : α × Reader → Except Failure (β × Reader)} (h : g.Mirrors tokens move x y)
    (hkeeps : ∀ {a s b u}, x = .ok (a, s) → f (a, s) = .ok (b, u) →
      u.left ≤ s.left ∧ (g.Settled (tokens' b) → g.Settled (tokens a)))
    (hf : ∀ {a s s'}, g.Follows s s' → g.Mirrors tokens' move' (f (a, s)) (f' (move a, s'))) :
    g.Mirrors tokens' move' (x >>= f) (y >>= f') where
  ok {b u} hx hin hsettled := by
    obtain ⟨⟨a, s⟩, rfl, hfa⟩ := bind_eq_ok hx
    obtain ⟨hle, hkept⟩ := hkeeps rfl hfa
    obtain ⟨s', rfl, hs⟩ := h.ok rfl (Nat.le_trans hin hle) (hkept hsettled)
    exact (hf hs).ok hfa hin hsettled
  error hback f₀ hx := by
    rcases x with failure | ⟨a, s⟩
    · obtain ⟨failure', rfl⟩ := h.error hback rfl
      exact ⟨_, rfl⟩
    · obtain ⟨s', rfl, hs⟩ := h.ok rfl (by rw [hback]; exact Nat.zero_le _) (.inl hback)
      exact (hf hs).error hback hx

/-- The readers of segments of the two texts mirror each other. -/
def MirrorsSegments (g : Graft) (segment : SegmentReader) : Prop :=
  ∀ q q' r r', g.Follows r r' →
    g.Mirrors id (List.map (Token.moved g.shift)) (segment q r) (segment q' r')

end Graft

/-! ## bodies -/

/-- Bodies are read in the same manner. -/
structure Quoting.Like (q q' : Quoting) : Prop where
  opener : q'.opener = q.opener
  closer : q'.closer = q.closer
  interpolates : q'.interpolates = q.interpolates

/-- Like quotations keep like escapes. -/
theorem Quoting.Like.pushEscaped {q q' : Quoting} (hq : q.Like q') (σ : Shift) (body : Quoted)
    (c : Char) :
    Quoted.pushEscaped q' (body.moved σ) c = (Quoted.pushEscaped q body c).moved σ := by
  unfold Quoted.pushEscaped
  rw [hq.interpolates, hq.closer, hq.opener]
  split
  · rfl
  · split <;> rfl

namespace Graft

variable {g : Graft}

/-- A turn of the stretch in the one text is one in the other. -/
def MirrorsTurn (g : Graft) (y : Quoting.Turn) : Quoting.Turn → Prop
  | .failed _ => g.back = [] → ∃ failure, y = .failed failure
  | .closed body s => g.back.length ≤ s.left →
    ∃ s', y = .closed (body.moved g.shift) s' ∧ g.Follows s s'
  | .on depth body s => g.back.length ≤ s.left → g.Settled body.nested →
    ∃ s', y = .on depth (body.moved g.shift) s' ∧ g.Follows s s'

/-- What follows begins alike but for a quotation mark. -/
theorem Follows.head?_beq_eq {r r' : Reader} (h : g.Follows r r') {c : Char} (hquote : c ≠ '"')
    (hsharp : c ≠ '#') : (r'.rest.head? == some c) = (r.rest.head? == some c) := by
  rcases h.cursor.head?_eq with hsame | ⟨hhead, hhead'⟩
  · rw [Reader.rest, hsame]
    rfl
  · rw [Reader.rest, Reader.rest, hhead, hhead']
    simp [Ne.symm hquote, Ne.symm hsharp]

/-- Behind the stretch nothing is read that ends in it. -/
theorem Follows.turn_behind {r r' : Reader} (h : g.Follows r r') (hend : ¬g.back.length < r.left)
    (segment : SegmentReader) (q q' : Quoting) (depth : Nat) (body body' : Quoted) :
    g.MirrorsTurn (q'.turn segment depth body' r') (q.turn segment depth body r) := by
  have hkeeps := Quoting.keeps_turn q segment depth body r
  cases hturn : q.turn segment depth body r with
  | failed failure =>
    intro hback
    have hb : r.bump = none := by
      by_contra hsome
      obtain ⟨next, hb⟩ := Option.ne_none_iff_exists'.1 hsome
      have := Reader.left_bump hb
      rw [hback, List.length_nil] at hend
      omega
    rw [Quoting.turn, (h.bump_eq_none hb).2]
    exact ⟨_, rfl⟩
  | closed b s =>
    rw [hturn] at hkeeps
    exact fun hin => absurd (Nat.lt_of_le_of_lt hin hkeeps.1) hend
  | on d b s =>
    rw [hturn] at hkeeps
    exact fun hin => absurd (Nat.lt_of_le_of_lt hin hkeeps.1) hend

/-- A segment, and the body behind it. -/
theorem Follows.turn_segment {r r' : Reader} (h : g.Follows r r') (q q' : Quoting) (depth : Nat)
    (body : Quoted) {x y : Except Failure (List Token × Reader)} :
    g.Mirrors id (List.map (Token.moved g.shift)) x y → g.MirrorsTurn
      (match y with
      | .error failure => .failed failure
      | .ok (tokens, t) =>
        if t.left < r'.left then
          .on depth { body.moved g.shift with
            nested := (body.moved g.shift).nested ++ tokens, dynamic := true } t
        else .failed (t.unterminated q'.what q'.start))
      (match x with
      | .error failure => .failed failure
      | .ok (tokens, t) =>
        if t.left < r.left then
          .on depth { body with nested := body.nested ++ tokens, dynamic := true } t
        else .failed (t.unterminated q.what q.start)) := by
  intro hread
  cases x with
  | error failure =>
    intro hback
    obtain ⟨failure', rfl⟩ := hread.error hback rfl
    exact ⟨failure', rfl⟩
  | ok read =>
    obtain ⟨tokens, t⟩ := read
    simp only
    by_cases hleft : t.left < r.left
    · rw [if_pos hleft]
      intro hin hsettled
      obtain ⟨t', rfl, ht⟩ := hread.ok rfl hin hsettled.of_append_right
      refine ⟨t', ?_, ht⟩
      simp only [if_pos ((h.left_lt_iff ht).2 hleft)]
      simp [Quoted.moved]
    · rw [if_neg hleft]
      intro hback
      obtain ⟨t', rfl, ht⟩ := hread.ok rfl (by rw [hback]; exact Nat.zero_le _) (.inl hback)
      exact ⟨_, by simp only [if_neg (mt (h.left_lt_iff ht).1 hleft)]; rfl⟩

/-- A turn of a quotation goes alike in both sources. -/
theorem MirrorsSegments.turn {segment : SegmentReader} (hsegment : g.MirrorsSegments segment)
    {q q' : Quoting} (hq : q.Like q') {r r' : Reader} (h : g.Follows r r') (depth : Nat)
    (body : Quoted) :
    g.MirrorsTurn (q'.turn segment depth (body.moved g.shift) r')
      (q.turn segment depth body r) := by
  by_cases hlt : g.back.length < r.left
  · unfold Quoting.turn
    cases hb : r.bump with
    | none =>
      rw [(h.bump_eq_none hb).2]
      exact fun _ => ⟨_, rfl⟩
    | some next =>
      obtain ⟨c, s⟩ := next
      obtain ⟨s', hb', hs⟩ := h.bump_of_lt hb hlt
      simp only [hb', hq.interpolates, hq.opener, hq.closer,
        hs.head?_beq_eq (c := '{') (by decide) (by decide),
        hs.head?_beq_eq (c := '@') (by decide) (by decide),
        hs.head?_beq_eq (c := '$') (by decide) (by decide)]
      split
      · cases hb₂ : s.bump with
        | none =>
          rw [(hs.bump_eq_none hb₂).2]
          exact fun _ => ⟨_, rfl⟩
        | some next =>
          intro hin _
          obtain ⟨t', hb₂', ht⟩ := hs.bump hb₂ hin
          simp only [hb₂', hq.pushEscaped]
          exact ⟨t', rfl, ht⟩
      · split
        · next hopens =>
          have hbrace : s.rest.head? = some '{' := by simp_all
          have hin : g.back.length ≤ (s.advance 1).left := by
            have := hs.lt_left_of_head? hbrace (by decide)
            rw [Reader.left, Reader.advance, Cursor.left_advance]
            exact Nat.le_sub_one_of_lt this
          exact h.turn_segment q q' depth body (hsegment q q' _ _ (hs.advance hin))
        · have hmoved : ∀ b : Bool,
              (if b = true then { body.moved g.shift with dynamic := true }
                else body.moved g.shift) =
              (if b = true then { body with dynamic := true } else body).moved g.shift :=
            fun b => by cases b <;> rfl
          rw [hmoved]
          split
          · exact fun _ _ => ⟨s', rfl, hs⟩
          · split
            · cases depth with
              | zero => exact fun _ => ⟨s', rfl, hs⟩
              | succ depth => exact fun _ _ => ⟨s', rfl, hs⟩
            · exact fun _ _ => ⟨s', rfl, hs⟩
  · exact h.turn_behind hlt segment q q' depth body _

/-- All of a body, by its turns. -/
theorem MirrorsSegments.body {segment : SegmentReader} (hsegment : g.MirrorsSegments segment)
    {q q' : Quoting} (hq : q.Like q') {r r' : Reader} (h : g.Follows r r') (depth : Nat)
    (body : Quoted) :
    g.Mirrors Quoted.nested (Quoted.moved g.shift) (q.body segment depth body r)
      (q'.body segment depth (body.moved g.shift) r') := by
  induction hn : r.left using Nat.strongRecOn generalizing depth body r r' with
  | ind n ih =>
    have hturn := hsegment.turn hq h depth body
    have hkeeps := Quoting.keeps_turn q segment depth body r
    rw [Quoting.body_eq_turn (q := q), Quoting.body_eq_turn (q := q')]
    generalize q.turn segment depth body r = x at hturn hkeeps ⊢
    generalize q'.turn segment depth (body.moved g.shift) r' = y at hturn ⊢
    cases x with
    | failed failure =>
      refine ⟨(nomatch ·), fun hback _ _ => ?_⟩
      obtain ⟨failure', rfl⟩ := hturn hback
      exact ⟨failure', rfl⟩
    | closed b s =>
      refine ⟨fun hx hin _ => ?_, fun _ _ hx => nomatch hx⟩
      obtain ⟨rfl, rfl⟩ := Prod.mk.inj (Except.ok.inj hx)
      obtain ⟨s', rfl, hs⟩ := hturn hin
      exact ⟨s', rfl, hs⟩
    | on d b s =>
      refine ⟨fun {b' u} hx hin hsettled => ?_, fun hback _ hx => ?_⟩
      · obtain ⟨hlt, hkept⟩ := Quoting.keeps_body hx
        obtain ⟨more, hmore⟩ := hkept.nested
        have hb : g.Settled b.nested := (hmore ▸ hsettled).of_append_left
        obtain ⟨s', rfl, hs⟩ := hturn (Nat.le_trans hin (Nat.le_of_lt hlt)) hb
        exact (ih _ (hn ▸ hkeeps.1) hs d b rfl).ok hx hin hsettled
      · obtain ⟨s', rfl, hs⟩ := hturn (by rw [hback]; exact Nat.zero_le _) (.inl hback)
        exact (ih _ (hn ▸ hkeeps.1) hs d b rfl).error hback hx

/-- A body that begins `n` characters on. -/
theorem MirrorsSegments.body_advance {segment : SegmentReader}
    (hsegment : g.MirrorsSegments segment) {q q' : Quoting} (hq : q.Like q') {r r' : Reader}
    (h : g.Follows r r') (n : Nat) :
    g.Mirrors Quoted.nested (Quoted.moved g.shift) (q.body segment 0 {} (r.advance n))
      (q'.body segment 0 {} (r'.advance n)) where
  ok hx hin hsettled := by
    have hlt := (Quoting.keeps_body hx).1
    exact (hsegment.body hq (h.advance (Nat.le_trans hin (Nat.le_of_lt hlt))) 0 {}).ok hx hin
      hsettled
  error hback _ hx := by
    have hin : g.back.length ≤ (r.advance n).left := by rw [hback]; exact Nat.zero_le _
    exact (hsegment.body hq (h.advance hin) 0 {}).error hback hx

/-! ## segments -/

/-- The readers of tokens of the two texts mirror each other. -/
def MirrorsTokens (g : Graft) (token : Gap → Reader → Except Failure (Token × Reader)) : Prop :=
  ∀ gap r r', g.Follows r r' → g.MirrorsToken (token gap r) (token gap r')

end Graft

namespace Quoting

variable {q : Quoting} {token : Gap → Reader → Except Failure (Token × Reader)}

/-- Nested tokens leave no more to read and only add to what was read. -/
theorem keeps_segmentTokens {braces : Nat} {tokens ts : List Token} {r s : Reader}
    (h : q.segmentTokens token braces tokens r = .ok (ts, s)) :
    s.left ≤ r.left ∧ tokens.reverse <+: ts := by
  induction hn : r.left using Nat.strongRecOn generalizing braces tokens r with
  | ind n ih =>
    have hle := r.left_skipTrivia_le {}
    rw [segmentTokens] at h
    generalize r.skipTrivia = skipped at h hle
    obtain ⟨gap, u⟩ := skipped
    simp only at h
    split at h
    · cases h
    · split at h
      · obtain ⟨rfl, rfl⟩ := Prod.mk.inj (Except.ok.inj h)
        exact ⟨hn ▸ Nat.le_trans (Cursor.left_advance_le _ _) hle, List.prefix_refl _⟩
      · split at h
        · cases h
        · next t v _ =>
          split at h
          · next hleft =>
            rw [← v.left_note t] at hleft
            obtain ⟨hs, hkept⟩ := ih _ (hn ▸ hleft) h rfl
            rw [List.reverse_cons] at hkept
            exact ⟨by omega, (List.prefix_append _ _).trans hkept⟩
          · cases h

end Quoting

namespace Graft

variable {g : Graft} {token : Gap → Reader → Except Failure (Token × Reader)}

/-- What is refused in both texts. -/
theorem Mirrors.refused {α : Type} {tokens : α → List Token} {move : α → α} (f f' : Failure) :
    g.Mirrors tokens move (.error f) (.error f') where
  ok hx := nomatch hx
  error _ _ _ := ⟨f', rfl⟩

/-- Where the donor goes on, so does the host, and they close together. -/
theorem Follows.exists_rest_cons {r r' : Reader} (h : g.Follows r r') {c : Char} {cs : List Char}
    (hrest : r.rest = c :: cs) : ∃ c' cs', r'.rest = c' :: cs' ∧ (c' = '}' ↔ c = '}') := by
  have hhead : r.rest.head? = some c := by rw [hrest, List.head?_cons]
  rcases h.cursor.head?_eq with hsame | ⟨hquote, hsharp⟩
  · obtain ⟨cs', hcs'⟩ := List.head?_eq_some_iff.1 (hsame.trans hhead)
    exact ⟨c, cs', hcs', Iff.rfl⟩
  · obtain ⟨cs', hcs'⟩ := List.head?_eq_some_iff.1 hsharp
    obtain rfl := Option.some.inj (hhead.symm.trans hquote)
    exact ⟨'#', cs', hcs', by decide⟩

/-- Where the donor ends, so does the host. -/
theorem Follows.rest_eq_nil {r r' : Reader} (h : g.Follows r r') (hrest : r.rest = []) :
    r'.rest = [] := by
  obtain ⟨xs, -, hxs, -⟩ := h.cursor.exists_rest
  rw [Reader.rest, hxs, List.append_eq_nil_iff] at hrest
  rw [Reader.rest, h.cursor.rest_eq_of_nil hrest.2, hxs, hrest.1, hrest.2]
  rfl

/-- Nested tokens are read alike in both sources. -/
theorem MirrorsTokens.segmentTokens (htoken : g.MirrorsTokens token) (q q' : Quoting)
    {r r' : Reader} (h : g.Follows r r') (braces : Nat) (tokens : List Token) :
    g.Mirrors id (List.map (Token.moved g.shift)) (q.segmentTokens token braces tokens r)
      (q'.segmentTokens token braces (tokens.map (Token.moved g.shift)) r') := by
  induction hn : r.left using Nat.strongRecOn generalizing braces tokens r r' with
  | ind n ih =>
    rw [Quoting.segmentTokens, Quoting.segmentTokens]
    rcases h.skipTrivia {} with ⟨s', hskip', hs⟩ | ⟨hnone, hnone'⟩
    · rw [hskip']
      generalize r.skipTrivia {} = skipped at hs ⊢
      obtain ⟨gap, s⟩ := skipped
      simp only at hs ⊢
      cases hrest : s.rest with
      | nil =>
        rw [hs.rest_eq_nil hrest]
        exact .refused _ _
      | cons c cs =>
        obtain ⟨c', cs', hrest', hbrace⟩ := hs.exists_rest_cons hrest
        simp only [hrest', hbrace]
        by_cases hclose : c = '}' ∧ braces = 0
        · simp only [if_pos hclose]
          refine ⟨fun hx hin _ => ?_, fun _ _ hx => by cases hx⟩
          obtain ⟨rfl, rfl⟩ := Prod.mk.inj (Except.ok.inj hx)
          exact ⟨_, by rw [List.map_reverse], hs.advance hin⟩
        · simp only [if_neg hclose]
          have hread := htoken gap s s' hs
          cases hx : token gap s with
          | error failure =>
            refine ⟨fun hx => (by cases hx), fun hback _ _ => ?_⟩
            obtain ⟨failure', hx'⟩ := hread.error hback hx
            exact ⟨failure', by rw [hx']⟩
          | ok read =>
            obtain ⟨t, u⟩ := read
            simp only
            by_cases hleft : u.left < r.left
            · have hrun : ∀ {u'} (braces : Nat), g.Follows u u' → _ := fun {u'} braces hu =>
                ih _ (hn ▸ u.left_note t ▸ hleft) (hu.note t) braces (t :: tokens) rfl
              rw [if_pos hleft]
              refine ⟨fun {ts v} hx₂ hin hsettled => ?_, fun hback _ hx₂ => ?_⟩
              · obtain ⟨hle, more, hmore⟩ := Quoting.keeps_segmentTokens hx₂
                rw [Reader.left_note] at hle
                have ht : g.Settled [t] := by
                  rw [← hmore, List.reverse_cons] at hsettled
                  exact Settled.of_append_right (Settled.of_append_left hsettled)
                obtain ⟨u', hx', hu⟩ := hread.ok hx (Nat.le_trans hin hle) ht
                simp only [hx', if_pos ((h.left_lt_iff hu).2 hleft), Token.kind_moved]
                exact (hrun _ hu).ok hx₂ hin hsettled
              · obtain ⟨u', hx', hu⟩ :=
                  hread.ok hx (by rw [hback]; exact Nat.zero_le _) (.inl hback)
                simp only [hx', if_pos ((h.left_lt_iff hu).2 hleft), Token.kind_moved]
                exact (hrun _ hu).error hback hx₂
            · rw [if_neg hleft]
              refine ⟨fun hx => (by cases hx), fun hback _ _ => ?_⟩
              obtain ⟨u', hx', hu⟩ := hread.ok hx (by rw [hback]; exact Nat.zero_le _) (.inl hback)
              exact ⟨_, by simp only [hx', if_neg (mt (h.left_lt_iff hu).1 hleft)]; rfl⟩
    · generalize r.skipTrivia {} = skipped at hnone ⊢
      generalize r'.skipTrivia {} = skipped' at hnone' ⊢
      simp only [hnone]
      refine ⟨fun hx => (by cases hx), fun hback _ _ => ?_⟩
      simp only [hnone' hback]
      exact ⟨_, rfl⟩

/-- What is interpolated is read alike in both sources, if its tokens are. -/
theorem MirrorsTokens.segmentWith (htoken : g.MirrorsTokens token) :
    g.MirrorsSegments (segmentWith token) := by
  intro q q' r r' h
  have hinner : g.Follows { r with previous := none, afterQuestion := false, loopLine := none }
      { r' with previous := none, afterQuestion := false, loopLine := none } :=
    ⟨h.cursor, h.jump, rfl, rfl, rfl⟩
  have hread := htoken.segmentTokens q q' hinner 0 []
  unfold ConnectorAudit.segmentWith
  refine ⟨fun {ts u} hx hin hsettled => ?_, fun hback _ hx => ?_⟩
  · simp only at hx
    split at hx
    · cases hx
    · next tokens s hx₁ =>
      obtain ⟨rfl, rfl⟩ := Prod.mk.inj (Except.ok.inj hx)
      obtain ⟨s', hx', hs⟩ := hread.ok hx₁ hin hsettled
      simp only [List.map_nil] at hx'
      simp only [hx']
      exact ⟨_, rfl, ⟨hs.cursor, hs.jump, h.previous, h.afterQuestion, h.loopLine⟩⟩
  · simp only at hx
    split at hx
    · next failure hx₁ =>
      obtain ⟨failure', hx'⟩ := hread.error hback hx₁
      simp only [List.map_nil] at hx'
      simp only [hx']
      exact ⟨_, rfl⟩
    · cases hx

/-- A slash in front of anything but an equals sign is a mark of its own. -/
theorem firstOf_punctuation_slash {c : Char} (hc : c ≠ '=') (cs : List Char) :
    firstOf punctuation ('/' :: c :: cs) = some "/" := by
  have hne : ('=' == c) = false := beq_false_of_ne (Ne.symm hc)
  simp [firstOf, punctuation, List.isPrefixOf_cons_cons, hne]

/-- A slash of the donor that might begin a regex leans. -/
theorem Matches.leans_punctuation {r : Reader} {k' : Cursor} (h : g.Matches r.cursor k')
    {cs : List Char} (hrest : r.rest = '/' :: cs) {gap : Gap}
    (hfollows : r.argumentFollows gap = true) (e : Bool) :
    ({ r with ended := e }.punctuation gap).1.leans (String.ofList g.donor) = true := by
  obtain ⟨c, xs, rfl, hspace, hblank, hc⟩ : ∃ c xs, cs = c :: xs ∧ gap.space = true ∧
      isBlank c = false ∧ c ≠ '=' := by
    unfold Reader.argumentFollows at hfollows
    split at hfollows
    · next heq =>
      obtain rfl := (List.cons.inj (hrest.symm.trans heq)).2
      simpa [and_assoc] using hfollows
    · cases hfollows
  obtain ⟨m, hm, hk, -⟩ := h
  rw [Reader.rest, hk, Cursor.rest_place] at hrest
  have hlt : g.front.length + m + 1 ≤ g.donor.length := by
    have := congrArg List.length hrest
    simp only [List.length_drop, List.length_cons] at this
    omega
  have hnext : g.donor.drop (g.front.length + m + 1) = c :: xs := by
    rw [← List.drop_drop, hrest, List.drop_one, List.tail_cons]
  have htext : (g.donor.drop (g.front.length + m)).take 1 = ['/'] := by rw [hrest]; rfl
  have hat : Cursor.at? (String.ofList g.donor)
      (byteAt (String.ofList g.donor).toList (g.front.length + m + 1)) = _ :=
    Cursor.at?_place (by rwa [String.toList_ofList])
  have hstop : (Token.between .punctuation gap
      (.place (String.ofList g.donor).toList (g.front.length + m))
      (.place (String.ofList g.donor).toList (g.front.length + m + 1))).stop = _ :=
    Token.stop_between (Nat.le_succ _)
  rw [String.toList_ofList] at hat hstop
  simp only [Reader.punctuation, Reader.rest, hk, Cursor.rest_place, hrest,
    firstOf_punctuation_slash hc, Reader.take, Reader.advance, Cursor.advance_place]
  rw [Token.leans, show "/".length = 1 from rfl, hstop, hat]
  simp only [Token.isPunct, Token.between, Cursor.textTo_place (Nat.le_succ _), hspace,
    Option.any_some, Cursor.rest_place, hnext, List.head?_cons, hblank]
  rw [Nat.succ_sub (Nat.le_refl _), Nat.sub_self, htext]
  rfl

/-- Reading no segments goes alike in both sources. -/
theorem mirrorsSegments_noSegment : g.MirrorsSegments noSegment :=
  fun _ _ _ _ _ => .refused _ _

/-! ## literals -/

/-- The flags behind a regex. -/
theorem Follows.flags {s s' : Reader} (hs : g.Follows s s')
    (hin : g.back.length ≤ (s.advance (runLength Char.isLower s.rest)).left) :
    g.Follows (s.advance (runLength Char.isLower s.rest))
      (s'.advance (runLength Char.isLower s'.rest)) := by
  have hflags : runLength Char.isLower s'.rest = runLength Char.isLower s.rest :=
    hs.cursor.runLength_eq (by decide) (by decide) (by decide)
  rw [hflags]
  exact hs.advance hin

namespace MirrorsSegments

variable {segment : SegmentReader} (hsegment : g.MirrorsSegments segment) {r r' : Reader}
  (h : g.Follows r r')
include hsegment h

/-- A literal that ends where its body does. -/
theorem literal_mirrors {q q' : Quoting} (hq : q.Like q') (n : Nat) (kind : Token.Kind) (gap : Gap)
    (value : Quoted → Option String) (hvalue : ∀ body, value (body.moved g.shift) = value body)
    (stop : Reader → Reader) (hstop : ∀ {s s'}, g.Follows s s' → g.back.length ≤ (stop s).left →
      g.Follows (stop s) (stop s')) (hle : ∀ s, (stop s).left ≤ s.left) :
    g.MirrorsToken
      (do
        let (body, s) ← q.body segment 0 {} (r.advance n)
        return (.between kind gap r.cursor (stop s).cursor (value body) body.nested, stop s))
      (do
        let (body, s) ← q'.body segment 0 {} (r'.advance n)
        return (.between kind gap r'.cursor (stop s).cursor (value body) body.nested, stop s)) := by
  refine (hsegment.body_advance hq h n).bind ?_ ?_
  · intro body s t u _ hf
    obtain ⟨rfl, rfl⟩ := Prod.mk.inj (Except.ok.inj hf)
    exact ⟨hle s, Settled.nested⟩
  · intro body s s' hs
    refine ⟨fun hx hin _ => ?_, fun _ _ hx => nomatch hx⟩
    obtain ⟨rfl, rfl⟩ := Prod.mk.inj (Except.ok.inj hx)
    have hend := hstop hs hin
    refine ⟨stop s', ?_, hend⟩
    rw [← moved_between h.cursor hend.cursor, ← hvalue]
    rfl

/-- A symbol in quotes is read alike in both sources. -/
theorem quotedSymbol (gap : Gap) (quote : Char) :
    g.MirrorsToken (r.quotedSymbol segment gap quote) (r'.quotedSymbol segment gap quote) :=
  hsegment.literal_mirrors h (by constructor <;> rfl) 2 .symbol gap Quoted.value (fun _ => rfl) id
    (fun hs _ => hs) fun _ => Nat.le_refl _

/-- A regex is read alike in both sources. -/
theorem regex (gap : Gap) :
    g.MirrorsToken (r.regex segment gap) (r'.regex segment gap) :=
  hsegment.literal_mirrors h (by constructor <;> rfl) 1 .regex gap (fun _ => none) (fun _ => rfl)
    (fun s => s.advance (runLength Char.isLower s.rest)) Follows.flags
    fun _ => Cursor.left_advance_le _ _

/-- A literal behind a percent sign is read alike in both sources. -/
theorem percent (gap : Gap) (head : PercentHead) :
    g.MirrorsToken (r.percent segment gap head) (r'.percent segment gap head) := by
  refine hsegment.literal_mirrors h (by constructor <;> rfl) head.length head.kind gap head.value ?_
    (fun s => if head.kind = .regex then s.advance (runLength Char.isLower s.rest) else s) ?_ ?_
  · intro body
    unfold PercentHead.value
    split <;> rfl
  · intro s s' hs hin
    split
    · next hkind =>
      simp only [if_pos hkind] at hin
      exact hs.flags hin
    · exact hs
  · intro s
    split
    · exact Cursor.left_advance_le _ _
    · exact Nat.le_refl _

/-- A quotation is read alike in both sources. -/
theorem quotation (gap : Gap) (quote : Char) :
    g.MirrorsToken (r.quotation segment gap quote) (r'.quotation segment gap quote) := by
  unfold Reader.quotation
  refine (hsegment.body_advance (by constructor <;> rfl) h 1).bind ?_ ?_
  · intro body s t u hbody hf
    simp only at hf
    split at hf
    · next hlabel =>
      obtain ⟨rfl, rfl⟩ := Prod.mk.inj (Except.ok.inj hf)
      have hstatic : body.dynamic = false := by simp_all
      have hnone : body.nested = [] := ((Quoting.keeps_body hbody).2.static hstatic).2
      refine ⟨Cursor.left_advance_le _ _, fun _ => ?_⟩
      rw [hnone]
      exact .inr fun t ht => nomatch ht
    · obtain ⟨rfl, rfl⟩ := Prod.mk.inj (Except.ok.inj hf)
      exact ⟨Nat.le_refl _, Settled.nested⟩
  · intro body s s' hs
    have hdynamic : (body.moved g.shift).dynamic = body.dynamic := rfl
    have hcolon : labelColon s'.rest = labelColon s.rest := hs.cursor.labelColon_eq
    simp only [hdynamic, hs.afterQuestion, hcolon]
    by_cases hlabel :
        (!quote == '\x60' && !body.dynamic && !s.afterQuestion && labelColon s.rest) = true
    · simp only [if_pos hlabel]
      refine Carries.mirrors fun hin => ?_
      have hend := hs.advance hin
      exact ⟨moved_between h.cursor hend.cursor .label gap _ [], hend⟩
    · simp only [if_neg hlabel]
      exact Carries.mirrors fun _ => ⟨moved_between h.cursor hs.cursor _ gap _ _, hs⟩

/-- What a colon begins is read alike in both sources. -/
theorem colon (hahead : SameAhead r.rest r'.rest) {cs : List Char} (hrest : r.rest = ':' :: cs)
    (gap : Gap) : g.MirrorsToken (r.colon segment gap) (r'.colon segment gap) := by
  have hpunctuation := (h.punctuation hahead gap).mirrors
  rw [hrest] at hahead
  obtain ⟨ds, hrest', htail⟩ := hahead.tail (by decide)
  unfold Reader.colon
  rw [hrest, hrest']
  obtain ⟨rfl, rfl⟩ | ⟨c, xs, ys, rfl, rfl⟩ := htail.eq_nil_or_eq_cons
  · exact hpunctuation
  · obtain ⟨hword, -⟩ := htail.take_eq (SameAhead.brace_not_mem_word (c :: xs))
    simp only [List.tail_cons, htail.wordLength_eq, hword, htail.operatorSymbols_eq,
      h.valueExpected_eq]
    split
    · exact hsegment.quotedSymbol h gap c
    · split
      · exact (h.take _ _ _ _).mirrors
      · split
        · split
          · exact (h.take _ _ _ _).mirrors
          · exact hpunctuation
        · exact hpunctuation

/-- A slash where an argument follows is read alike in both sources. -/
theorem regexOrSlash (hahead : SameAhead r.rest r'.rest) {cs : List Char}
    (hrest : r.rest = '/' :: cs) {gap : Gap} (hfollows : r.argumentFollows gap = true) :
    g.MirrorsToken (.ok (r.regexOrSlash segment gap)) (.ok (r'.regexOrSlash segment gap)) := by
  have hread := hsegment.regex h gap
  have hslash : ∀ e e', g.Carries ({ r with ended := e }.punctuation gap)
      ({ r' with ended := e' }.punctuation gap) := by
    intro e e'
    have h' : g.Follows { r with ended := e } { r' with ended := e' } :=
      ⟨h.cursor, h.jump, h.previous, h.afterQuestion, h.loopLine⟩
    exact h'.punctuation hahead gap
  -- A slash that is given up leans, so the stretch ends both texts and is given up in both.
  have hgiven : ∀ e, g.Settled [({ r with ended := e }.punctuation gap).1] → g.back = [] :=
    fun e hsettled => hsettled.resolve_right fun hall =>
      absurd (hall _ (by rw [Token.preorderAll, Token.preorder_eq]; exact List.mem_cons_self)) (by
        rw [h.cursor.leans_punctuation hrest hfollows]; decide)
  unfold Reader.regexOrSlash
  refine ⟨fun {t u} hx hin hsettled => ?_, fun _ _ hx => by cases hx⟩
  cases hregex : r.regex segment gap with
  | error failure =>
    rw [hregex] at hx
    replace hx : { r with ended := failure.ended }.punctuation gap = (t, u) := Except.ok.inj hx
    have hback := hgiven failure.ended (by rw [hx]; exact hsettled)
    obtain ⟨failure', hregex'⟩ := hread.error hback hregex
    have hs := hslash failure.ended failure'.ended
    rw [hx] at hs
    simp only [hregex']
    exact ⟨_, by rw [← (hs hin).1], (hs hin).2⟩
  | ok read =>
    obtain ⟨t₁, s⟩ := read
    rw [hregex] at hx
    simp only at hx
    by_cases hline : t₁.text.toList.contains '\n' = true
    · rw [if_pos hline] at hx
      replace hx : { r with ended := s.ended }.punctuation gap = (t, u) := Except.ok.inj hx
      have hback := hgiven s.ended (by rw [hx]; exact hsettled)
      obtain ⟨s', hregex', -⟩ := hread.ok hregex (by rw [hback]; exact Nat.zero_le _) (.inl hback)
      have hs := hslash s.ended s'.ended
      rw [hx] at hs
      simp only [hregex', Token.text_moved, if_pos hline]
      exact ⟨_, by rw [← (hs hin).1], (hs hin).2⟩
    · rw [if_neg hline] at hx
      obtain ⟨rfl, rfl⟩ := Prod.mk.inj (Except.ok.inj hx)
      obtain ⟨s', hregex', hs⟩ := hread.ok hregex hin hsettled
      simp only [hregex', Token.text_moved, if_neg hline]
      exact ⟨s', rfl, hs⟩

end MirrorsSegments

/-! ## tokens -/

/-- No token is read off a quotation mark that nothing closes. -/
theorem Mirrors.of_quote {r : Reader} (hquote : r.cursor.rest = ['"']) (hback : g.back = ['"'])
    (segment : SegmentReader) (gap : Gap) (y : Except Failure (Token × Reader)) :
    g.MirrorsToken (r.tokenWith segment gap) y := by
  refine ⟨fun {t s} hx _ _ => ?_, fun hnil => ?_⟩
  · replace hx : r.quotation segment gap '"' = .ok (t, s) := by
      unfold Reader.tokenWith at hx
      simp only [Reader.rest, hquote] at hx
      exact hx
    obtain ⟨⟨body, u⟩, hbody, -⟩ := bind_eq_ok hx
    have hlt := (Quoting.keeps_body hbody).1
    have hleft : (r.advance 1).left = 0 := by
      rw [Reader.left, Reader.advance, Cursor.left_advance, Cursor.left_eq_length, hquote]
      rfl
    exact absurd (hleft ▸ hlt) (Nat.not_lt_zero _)
  · rw [hnil] at hback
    cases hback

/-- Whatever token is read of the stretch, it is read in both texts. -/
theorem MirrorsSegments.tokenWith {segment : SegmentReader} (hsegment : g.MirrorsSegments segment) :
    g.MirrorsTokens (Reader.tokenWith segment) := by
  intro gap r r' h
  rcases h.cursor.ahead with hahead | ⟨hquote, hback, -⟩
  · replace hahead : SameAhead r.rest r'.rest := hahead
    have hpunctuation := (h.punctuation hahead gap).mirrors
    unfold Reader.tokenWith
    obtain ⟨hnil, hnil'⟩ | ⟨c, cs, ds, hrest, hrest'⟩ := hahead.eq_nil_or_eq_cons
    · simp only [hnil, hnil']
      exact .refused _ _
    simp only [hrest, hrest', h.cursor.opensBlockComment_eq, h.valueExpected_eq]
    by_cases hcomment : c = '#'
    · rw [if_pos hcomment, if_pos hcomment]
      exact (h.comment gap).mirrors
    rw [if_neg hcomment, if_neg hcomment]
    by_cases hblock : c = '=' ∧ Reader.opensBlockComment r.cursor
    · rw [if_pos hblock, if_pos hblock]
      exact h.blockComment gap
    rw [if_neg hblock, if_neg hblock]
    by_cases hquote : c = '\'' ∨ c = '"' ∨ c = '\x60'
    · rw [if_pos hquote, if_pos hquote]
      exact hsegment.quotation h gap c
    rw [if_neg hquote, if_neg hquote]
    by_cases hopen : c = '{'
    · rw [if_pos hopen, if_pos hopen]
      exact (h.take .braceOpen gap 1).mirrors
    rw [if_neg hopen, if_neg hopen]
    by_cases hclose : c = '}'
    · rw [if_pos hclose, if_pos hclose]
      exact (h.take .braceClose gap 1).mirrors
    rw [if_neg hclose, if_neg hclose]
    rw [h.argumentFollows_eq gap hrest hclose hahead]
    by_cases hcolon : c = ':'
    · rw [if_pos hcolon, if_pos hcolon]
      exact hsegment.colon h hahead (hcolon ▸ hrest) gap
    rw [if_neg hcolon, if_neg hcolon]
    by_cases hslash : c = '/'
    · rw [if_pos hslash, if_pos hslash]
      cases r.valueExpected with
      | true => exact hsegment.regex h gap
      | false =>
        cases hfollows : r.argumentFollows gap with
        | true => exact hsegment.regexOrSlash h hahead (hslash ▸ hrest) hfollows
        | false => exact hpunctuation
    rw [if_neg hslash, if_neg hslash]
    rw [← hrest, ← hrest', hahead.percentHead_eq, hahead.marker_eq]
    by_cases hpercent : c = '%'
    · rw [if_pos hpercent, if_pos hpercent]
      cases PercentHead.ofChars? r.rest with
      | none => exact hpunctuation
      | some head =>
        cases r.valueExpected || r.argumentFollows gap with
        | true => exact hsegment.percent h gap head
        | false => exact hpunctuation
    rw [if_neg hpercent, if_neg hpercent]
    by_cases hmark : c = '<'
    · rw [if_pos hmark, if_pos hmark]
      cases hmarker : Marker.ofChars? r.rest with
      | none => exact hpunctuation
      | some marker =>
        cases r.valueExpected || r.argumentFollows gap with
        | true => exact h.heredoc gap fun c => Marker.isNameChar_of_mem_terminator hmarker
        | false => exact hpunctuation
    rw [if_neg hmark, if_neg hmark]
    by_cases hsigil : c = '@' ∨ c = '$'
    · rw [if_pos hsigil, if_pos hsigil]
      exact (h.sigilName hahead gap).mirrors
    rw [if_neg hsigil, if_neg hsigil]
    cases c.isDigit with
    | true => exact (h.numeral hahead gap).mirrors
    | false =>
      cases isNameStart c with
      | true => exact (h.word hahead gap).mirrors
      | false => exact hpunctuation
  · exact .of_quote hquote hback segment gap _

/-- Tokens that hold code, to any depth. -/
theorem mirrorsTokens_tokenAt (levels : Nat) : g.MirrorsTokens (Reader.tokenAt levels) := by
  induction levels with
  | zero => exact mirrorsSegments_noSegment.tokenWith
  | succ levels ih => exact ih.segmentWith.tokenWith

end Graft

end ConnectorAudit
