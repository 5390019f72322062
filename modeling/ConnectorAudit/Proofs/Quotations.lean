import ConnectorAudit.Proofs.GraftedTokens
import ConnectorAudit.Proofs.Traces

/-!
# Sources that are one quotation

A source that begins with a quotation mark is scanned by reading the body of a
literal.  If that ends the source, the literal is its only token, and holds the
tokens that the body holds (`scan_of_body`, `body_of_scan`).

A body is read on from wherever it stands: what it holds so far is put before what
is read (`Quoting.body_append`).  So a body of which one segment is read in another
source goes on there with what follows (`Graft.MirrorsSegments.body_swap`).
-/

namespace ConnectorAudit

/-! ## what a body holds so far -/

/-- What two bodies hold, one behind the other. -/
def Quoted.append (a b : Quoted) : Quoted where
  cooked := a.cooked ++ b.cooked
  nested := a.nested ++ b.nested
  dynamic := a.dynamic || b.dynamic

instance : Append Quoted := ⟨Quoted.append⟩

namespace Quoted

variable (a b : Quoted)

@[simp]
theorem dynamic_append : (a ++ b).dynamic = (a.dynamic || b.dynamic) := rfl

theorem append_empty : a ++ ({} : Quoted) = a := by
  change Quoted.append a {} = a
  simp [Quoted.append]

/-- A character is added at the end. -/
theorem push_append (c : Char) : (a ++ b).push c = a ++ b.push c := by
  have hcooked : (a.cooked ++ b.cooked).push c = a.cooked ++ b.cooked.push c := by
    apply String.toList_injective
    simp
  change Quoted.push (Quoted.append a b) c = Quoted.append a (b.push c)
  simp only [Quoted.push, Quoted.append, hcooked]

/-- Nested tokens are added at the end. -/
theorem interpolate_append (tokens : List Token) :
    { a ++ b with nested := (a ++ b).nested ++ tokens, dynamic := true } =
      a ++ { b with nested := b.nested ++ tokens, dynamic := true } := by
  change Quoted.mk (a.cooked ++ b.cooked) (a.nested ++ b.nested ++ tokens) true =
    ⟨a.cooked ++ b.cooked, a.nested ++ (b.nested ++ tokens), a.dynamic || true⟩
  rw [List.append_assoc, Bool.or_true]

theorem sigil_append (dynamic : Bool) :
    (if dynamic = true then { a ++ b with dynamic := true } else a ++ b) =
      a ++ if dynamic = true then { b with dynamic := true } else b := by
  cases dynamic with
  | false => rfl
  | true =>
    change Quoted.mk (a.cooked ++ b.cooked) (a.nested ++ b.nested) true =
      ⟨a.cooked ++ b.cooked, a.nested ++ b.nested, a.dynamic || true⟩
    rw [Bool.or_true]

/-- An escape is added at the end. -/
theorem pushEscaped_append (q : Quoting) (c : Char) :
    Quoted.pushEscaped q (a ++ b) c = a ++ Quoted.pushEscaped q b c := by
  unfold pushEscaped
  split
  · exact push_append a b _
  · split
    · exact push_append a b _
    · rw [push_append, push_append]

end Quoted

namespace Quoting

/-- A turn behind what a body holds already. -/
def Turn.behind (a : Quoted) : Turn → Turn
  | .failed failure => .failed failure
  | .closed b s => .closed (a ++ b) s
  | .on depth b s => .on depth (a ++ b) s

variable {q : Quoting} {segment : SegmentReader} {depth : Nat} {r : Reader}

/-- What stands before does not change how a turn goes. -/
theorem turn_append (a b : Quoted) :
    q.turn segment depth (a ++ b) r = (q.turn segment depth b r).behind a := by
  unfold turn
  cases r.bump with
  | none => rfl
  | some next =>
    obtain ⟨c, s⟩ := next
    simp only [Quoted.pushEscaped_append]
    split
    · cases s.bump <;> rfl
    · split
      · rcases segment q (s.advance 1) with _ | ⟨tokens, t⟩
        · rfl
        · simp only
          split
          · rw [Turn.behind, Quoted.interpolate_append]
          · rfl
      · rw [Quoted.sigil_append]
        split
        · rw [Quoted.push_append]
          rfl
        · split
          · cases depth with
            | zero => rfl
            | succ depth =>
              rw [Quoted.push_append]
              rfl
          · rw [Quoted.push_append]
            rfl

/-- What stands before does not change how a body is read. -/
theorem body_append (a b : Quoted) :
    q.body segment depth (a ++ b) r =
      (fun x => (a ++ x.1, x.2)) <$> q.body segment depth b r := by
  induction hn : r.left using Nat.strongRecOn generalizing depth b r with
  | ind n ih =>
    have hkeeps := keeps_turn q segment depth b r
    rw [body_eq_turn, body_eq_turn, turn_append]
    cases hturn : q.turn segment depth b r with
    | failed failure => rfl
    | closed b' s => rfl
    | on depth' b' s =>
      rw [hturn] at hkeeps
      exact ih _ (hn ▸ hkeeps.1) b' rfl

end Quoting

/-! ## what a body leaves as it is -/

namespace Reader

/-- Readers with the same tokens behind them. -/
structure Unmoved (r s : Reader) : Prop where
  previous : s.previous = r.previous
  afterQuestion : s.afterQuestion = r.afterQuestion
  loopLine : s.loopLine = r.loopLine

theorem Unmoved.refl (r : Reader) : r.Unmoved r := ⟨rfl, rfl, rfl⟩

theorem Unmoved.trans {r s t : Reader} (hrs : r.Unmoved s) (hst : s.Unmoved t) : r.Unmoved t :=
  ⟨hst.previous.trans hrs.previous, hst.afterQuestion.trans hrs.afterQuestion,
    hst.loopLine.trans hrs.loopLine⟩

/-- Taking a jump changes nothing of the memory. -/
theorem unmoved_settle (r : Reader) : r.Unmoved r.settle := by
  unfold settle
  split
  · exact .refl r
  · split
    · exact ⟨rfl, rfl, rfl⟩
    · exact .refl r

theorem unmoved_advance (r : Reader) (n : Nat) : r.Unmoved (r.advance n) := ⟨rfl, rfl, rfl⟩

/-- A character that ends no line changes the cursor only. -/
theorem next?_of_bump {r s : Reader} {c : Char} (h : r.bump = some (c, s)) (hc : c ≠ '\n') :
    r.cursor.next? = some (c, s.cursor) ∧ s.jump = r.jump := by
  unfold bump at h
  split at h
  · cases h
  · next d k hnext =>
    obtain ⟨rfl, rfl⟩ := Prod.mk.inj (Option.some.inj h)
    rw [if_neg hc]
    exact ⟨hnext, rfl⟩

/-- Reading a character changes nothing of the memory. -/
theorem unmoved_bump {r s : Reader} {c : Char} (h : r.bump = some (c, s)) : r.Unmoved s := by
  unfold bump at h
  split at h
  · cases h
  · next d k _ =>
    obtain ⟨rfl, rfl⟩ := Prod.mk.inj (Option.some.inj h)
    have hmoved : r.Unmoved { r with cursor := k } := ⟨rfl, rfl, rfl⟩
    split
    · exact hmoved.trans (unmoved_settle _)
    · exact hmoved

end Reader

/-- Segments leave nothing behind. -/
def SegmentReader.Unmoving (segment : SegmentReader) : Prop :=
  ∀ q r ts s, segment q r = .ok (ts, s) → r.Unmoved s

/-- Reading a segment changes nothing of the memory. -/
theorem unmoving_segmentWith (token : Gap → Reader → Except Failure (Token × Reader)) :
    SegmentReader.Unmoving (segmentWith token) := by
  intro q r ts s h
  unfold segmentWith at h
  simp only at h
  split at h
  · cases h
  · obtain ⟨-, rfl⟩ := Prod.mk.inj (Except.ok.inj h)
    exact ⟨rfl, rfl, rfl⟩

namespace Quoting

variable {q : Quoting} {segment : SegmentReader} {depth : Nat} {body b : Quoted} {r s : Reader}

/-- Reading a body changes nothing of the memory. -/
theorem unmoved_body (hsegment : segment.Unmoving)
    (h : q.body segment depth body r = .ok (b, s)) : r.Unmoved s := by
  fun_induction Quoting.body q segment depth body r with
  | case1 => cases h
  | case2 => cases h
  | case3 depth body r s' e t hbump' _ hbump _ ih =>
    exact ((Reader.unmoved_bump hbump).trans (Reader.unmoved_bump hbump')).trans (ih h)
  | case4 => cases h
  | case5 depth body r c s' hbump _ _ _ tokens t hread _ ih =>
    have hcode := (Reader.unmoved_advance s' 1).trans (hsegment _ _ _ _ hread)
    exact ((Reader.unmoved_bump hbump).trans hcode).trans (ih h)
  | case6 => cases h
  | case7 depth body r c s' hbump =>
    rename_i ih
    exact (Reader.unmoved_bump hbump).trans (ih h)
  | case8 body r s' _ hbump =>
    obtain ⟨-, rfl⟩ := Prod.mk.inj (Except.ok.inj h)
    exact Reader.unmoved_bump hbump
  | case9 body r s' _ depth hbump =>
    rename_i ih
    exact (Reader.unmoved_bump hbump).trans (ih h)
  | case10 depth body r c s' hbump =>
    rename_i ih
    exact (Reader.unmoved_bump hbump).trans (ih h)

/-- A turn that closes a body reads the closer. -/
theorem bump_of_turn_closed (h : q.turn segment depth body r = .closed b s) :
    r.bump = some (q.closer, s) := by
  unfold turn at h
  split at h
  · cases h
  · next c v hbump =>
    split at h
    · split at h <;> cases h
    · split at h
      · split at h
        · cases h
        · split at h <;> cases h
      · simp only at h
        split at h
        · cases h
        · split at h
          · next hcloser =>
            cases depth with
            | zero =>
              obtain ⟨-, rfl⟩ := Turn.closed.inj h
              rw [hbump, hcloser]
            | succ depth => cases h
          · cases h

/-- The quotation mark that ends a text closes the literal. -/
theorem closed_of_rest (hcloser : q.closer = '"') (hrest : r.rest = ['"'])
    (h : q.body segment depth body r = .ok (b, s)) :
    depth = 0 ∧ b = body ∧ r.bump = some ('"', s) := by
  obtain ⟨v, hbump⟩ := Reader.exists_bump_of_head? (show r.rest.head? = some '"' by rw [hrest]; rfl)
  have hr : r.left = 1 := by
    rw [Reader.left, Cursor.left_eq_length, show r.cursor.rest = ['"'] from hrest]
    rfl
  have hv : v.left = 0 := Nat.lt_one_iff.1 (hr ▸ Reader.left_bump hbump)
  have hends : ∀ {d body'}, q.body segment d body' v ≠ .ok (b, s) := fun {d body'} hx => by
    have hlt := (keeps_body hx).1
    rw [hv] at hlt
    exact Nat.not_lt_zero _ hlt
  have hsharp : (q.interpolates && '"' == '#') = false := by rw [Bool.and_comm]; rfl
  have hescape : ¬ '"' = '\\' := by decide
  rw [body_eq_turn, turn] at h
  simp only [hbump, hcloser, hsharp, hescape, Bool.false_and, Bool.false_eq_true, if_true,
    if_false] at h
  by_cases hopener : q.opener = some '"'
  · rw [if_pos hopener] at h
    exact absurd h hends
  · rw [if_neg hopener] at h
    cases depth with
    | zero =>
      obtain ⟨rfl, rfl⟩ := Prod.mk.inj (Except.ok.inj h)
      exact ⟨rfl, rfl, hbump⟩
    | succ depth => exact absurd h hends

end Quoting

namespace Graft

variable {g : Graft} {segment : SegmentReader}

/-- A body that the quotation mark behind the stretch closes in the one text goes on behind the
stretch in the other. -/
theorem MirrorsSegments.body_swap (hsegment : g.MirrorsSegments segment) {q q' : Quoting}
    (hq : q.Like q') (hcloser : q.closer = '"') (hback : g.back = ['"']) {r r' u : Reader}
    (h : g.Follows r r') {depth : Nat} {body b : Quoted}
    (hx : q.body segment depth body r = .ok (b, u)) (hu : u.left = 0)
    (hsettled : g.Settled b.nested) :
    ∃ w w', g.Follows w w' ∧ w.rest = ['"'] ∧ w.bump = some ('"', u) ∧
      q'.body segment depth (body.moved g.shift) r' =
        q'.body segment 0 (b.moved g.shift) w' := by
  induction hn : r.left using Nat.strongRecOn generalizing depth body r r' with
  | ind n ih =>
    by_cases hrest : r.rest = ['"']
    · obtain ⟨rfl, rfl, hbump⟩ := Quoting.closed_of_rest hcloser hrest hx
      exact ⟨r, r', h, hrest, hbump, rfl⟩
    · have hturn := hsegment.turn hq h depth body
      have hkeeps := Quoting.keeps_turn q segment depth body r
      rw [Quoting.body_eq_turn] at hx ⊢
      cases hcase : q.turn segment depth body r with
      | failed failure =>
        rw [hcase] at hx
        cases hx
      | closed b' s =>
        -- More is left than a quotation mark, and the literal ends the text.
        rw [hcase] at hx
        obtain ⟨-, rfl⟩ := Prod.mk.inj (Except.ok.inj hx)
        have hbump := Quoting.bump_of_turn_closed hcase
        obtain ⟨xs, -, hxs, -⟩ := h.cursor.exists_rest
        rw [hback] at hxs
        have hnext := (Reader.next?_of_bump hbump (by rw [hcloser]; decide)).1
        have hone : r.left = 1 := (Cursor.left_next? hnext).trans (congrArg (· + 1) hu)
        rw [Reader.left, Cursor.left_eq_length, hxs, List.length_append, List.length_singleton,
          Nat.add_eq_right, List.length_eq_zero_iff] at hone
        rw [hone] at hxs
        exact absurd hxs hrest
      | on d b' s =>
        rw [hcase] at hx hturn hkeeps
        simp only at hx
        obtain ⟨hlt, hkept⟩ := Quoting.keeps_body hx
        obtain ⟨more, hmore⟩ := hkept.nested
        have hb' : g.Settled b'.nested := (hmore ▸ hsettled).of_append_left
        obtain ⟨s', hturn', hs⟩ := hturn (by rw [hback]; exact Nat.zero_lt_of_lt hlt) hb'
        rw [hturn']
        exact ih _ (hn ▸ hkeeps.1) hs hx rfl

end Graft

/-! ## scans -/

namespace Reader

variable {r : Reader} {cs : List Char}

/-- No blank is passed in front of a quotation mark. -/
theorem skipTrivia_of_quote (h : r.rest = '"' :: cs) (gap : Gap) : r.skipTrivia gap = (gap, r) := by
  obtain ⟨s, hbump⟩ := exists_bump_of_head? (show r.rest.head? = some '"' by rw [h]; rfl)
  have hmarker : atDataMarker r.cursor = false := by
    have hstarts : r.cursor.startsWith "__END__" = false := by
      rw [Cursor.startsWith, show r.cursor.rest = '"' :: cs from h]
      rfl
    rw [atDataMarker, hstarts, Bool.and_false, Bool.false_and]
  rw [skipTrivia_eq, hbump, hmarker]
  rfl

/-- No blank is passed at the end. -/
theorem skipTrivia_of_nil (h : r.rest = []) (gap : Gap) : r.skipTrivia gap = (gap, r) := by
  have hbump : r.bump = none := by
    rw [bump, Cursor.next?_eq_none_iff.2 h]
  rw [skipTrivia_eq, hbump]

/-- How the code of a literal is read that stands at top level. -/
def topSegment : SegmentReader := segmentWith (tokenAt (interpolationLimit - 1))

/-- A quotation mark begins a quotation. -/
theorem tokenAt_of_quote (h : r.rest = '"' :: cs) (gap : Gap) :
    tokenAt interpolationLimit gap r = r.quotation topSegment gap '"' := by
  change tokenWith topSegment gap r = _
  rw [tokenWith, h]
  rfl

end Reader

/-- How the body of a source is read that begins with a quotation mark. -/
def Quoting.atStart (source : String) : Quoting where
  what := .string
  start := .ofSource source
  closer := '"'
  interpolates := true

/-- The reader behind the first character of a source. -/
def Reader.inside (source : String) : Reader := (Reader.ofCursor (.ofSource source)).advance 1

theorem Quoting.like_atStart (source source' : String) : (atStart source).Like (atStart source') :=
  ⟨rfl, rfl, rfl⟩

namespace Reader

variable (source : String)

theorem cursor_inside : (inside source).cursor = .place source.toList 1 := by
  rw [inside, advance, ofCursor, Cursor.ofSource_eq_place, Cursor.advance_place]

theorem jump_inside : (inside source).jump = none := rfl

theorem previous_inside : (inside source).previous = none := rfl

theorem afterQuestion_inside : (inside source).afterQuestion = false := rfl

theorem loopLine_inside : (inside source).loopLine = none := rfl

end Reader

section

variable {source : String} {cs : List Char} (hsource : source.toList = '"' :: cs)

include hsource

/-- A source that begins with a quotation mark begins with a quotation, or with a label. -/
theorem quotation_start (gap : Gap) :
    Reader.tokenAt interpolationLimit gap (.ofCursor (.ofSource source)) =
      ((Quoting.atStart source).body Reader.topSegment 0 {} (.inside source) >>= fun (body, s) =>
        if !body.dynamic && !s.afterQuestion && labelColon s.rest then
          .ok (.between .label gap (.ofSource source) (s.advance 1).cursor (some body.cooked),
            s.advance 1)
        else .ok (.between .string gap (.ofSource source) s.cursor body.value body.nested, s)) := by
  have hrest : (Reader.ofCursor (.ofSource source)).rest = '"' :: cs := hsource
  rw [Reader.tokenAt_of_quote hrest]
  rfl

/-- A body with code in it that ends the source is that of the only token. -/
theorem scan_of_body {body : Quoted} {s : Reader}
    (h : (Quoting.atStart source).body Reader.topSegment 0 {} (.inside source) = .ok (body, s))
    (hdynamic : body.dynamic = true) (hs : s.rest = []) :
    Token.scan source =
      .ok [.between .string {} (.ofSource source) s.cursor none body.nested] := by
  have hrest : (Reader.ofCursor (.ofSource source)).rest = '"' :: cs := hsource
  have hvalue : body.value = none := by rw [Quoted.value, hdynamic, if_pos rfl]
  have htoken : Reader.tokenAt interpolationLimit {} (.ofCursor (.ofSource source)) =
      .ok (.between .string {} (.ofSource source) s.cursor none body.nested, s) := by
    rw [quotation_start hsource, h, ← hvalue]
    simp [bind, Except.bind, hdynamic]
  generalize hT : Token.between .string {} (.ofSource source) s.cursor none body.nested = t
    at htoken ⊢
  have hended : (Reader.ofCursor (.ofSource source)).ended = false := rfl
  have hstep : (Reader.ofCursor (.ofSource source)).step = .token t (s.note t) := by
    rw [Reader.step, hended]
    simp only [Reader.skipTrivia_of_quote hrest, hended, hrest, htoken]
    rfl
  have hend : (s.note t).rest = [] := by rw [Reader.rest, Reader.cursor_note]; exact hs
  have hdone : (s.note t).step = .done := by
    refine Reader.step_eq_done_iff.2 (.inr (.inr ?_))
    rw [Reader.skipTrivia_of_nil hend]
    exact hend
  have hlt : (s.note t).left < (Reader.ofCursor (.ofSource source)).left := by
    rw [Reader.left, Reader.left, Cursor.left_eq_length, Cursor.left_eq_length,
      show (s.note t).cursor.rest = [] from hend,
      show (Reader.ofCursor (.ofSource source)).cursor.rest = _ from hrest]
    exact Nat.zero_lt_succ _
  rw [Token.scan, Reader.tokensFrom, hstep]
  simp only [if_pos hlt]
  rw [Reader.tokensFrom, hdone]
  rfl

/-- The only token of a source is read at its beginning. -/
theorem tokenAt_of_scan {t : Token} (hscan : Token.scan source = .ok [t]) :
    ∃ s, Reader.tokenAt interpolationLimit {} (.ofCursor (.ofSource source)) = .ok (t, s) := by
  have hrest : (Reader.ofCursor (.ofSource source)).rest = '"' :: cs := hsource
  rw [Token.scan, Reader.tokensFrom] at hscan
  cases hstep : (Reader.ofCursor (.ofSource source)).step with
  | done =>
    rw [hstep] at hscan
    cases hscan
  | fault f t' s' =>
    rw [hstep] at hscan
    cases hscan
  | token t' s' =>
    obtain ⟨-, gap, u, v, hskip, -, hread, -⟩ := Reader.step_eq_token hstep
    rw [Reader.skipTrivia_of_quote hrest] at hskip
    obtain ⟨rfl, rfl⟩ := Prod.mk.inj hskip
    have hfirst : t' = t := by
      simp only [hstep] at hscan
      split at hscan
      · rw [Reader.tokensFrom_eq] at hscan
        split at hscan
        · exact (List.cons.inj (Except.ok.inj hscan)).1
        · cases hscan
      · exact (List.cons.inj (Except.ok.inj hscan)).1
    exact ⟨v, hfirst ▸ hread⟩

/-- The body of a source that is one literal. -/
theorem body_of_scan {t : Token} (hscan : Token.scan source = .ok [t]) (hkind : t.kind = .string)
    (htext : t.text = source) :
    ∃ body s, (Quoting.atStart source).body Reader.topSegment 0 {} (.inside source) =
        .ok (body, s) ∧ s.rest = [] ∧ s.jump = none ∧ t.nested = body.nested := by
  obtain ⟨s₀, htoken⟩ := tokenAt_of_scan hsource hscan
  have hrest : (Reader.ofCursor (.ofSource source)).rest = '"' :: cs := hsource
  rw [quotation_start hsource] at htoken
  obtain ⟨⟨body, s⟩, hbody, hrest'⟩ := bind_eq_ok htoken
  simp only at hrest'
  split at hrest'
  · obtain ⟨rfl, -⟩ := Prod.mk.inj (Except.ok.inj hrest')
    cases hkind
  · obtain ⟨rfl, rfl⟩ := Prod.mk.inj (Except.ok.inj hrest')
    have hne : (Reader.ofCursor (.ofSource source)).rest ≠ [] := by
      rw [hrest]
      exact List.cons_ne_nil _ _
    have hline : Inline 1 (Reader.ofCursor (.ofSource source)).rest :=
      hrest ▸ .succ_cons (by decide) (.zero _)
    obtain ⟨k, j, -, -, hs, -⟩ := (tokenReads_tokenAt source _).segmentWith.behind
      (Reader.At.start source) hne Nat.one_pos hline hbody
    have hj : j = source.toList.length := by
      have hchars := congrArg String.toList htext
      rw [Token.between, hs.cursor_eq, Cursor.ofSource_eq_place,
        Cursor.textTo_place (Nat.zero_le j), String.toList_ofList] at hchars
      have hlength := congrArg List.length hchars
      rw [List.drop_zero, List.length_take, Nat.sub_zero] at hlength
      have hle := hs.le_length
      omega
    refine ⟨body, s, hbody, ?_, ?_, rfl⟩
    · rw [hs.rest_eq, hj, List.drop_length]
    · cases hjump : s.jump with
      | none => rfl
      | some jump =>
        obtain ⟨line, resume, -, -, hline, hle, hlen, -⟩ := hs.awaits jump hjump
        omega

end

end ConnectorAudit
