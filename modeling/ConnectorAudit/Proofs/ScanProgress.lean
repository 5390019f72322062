import ConnectorAudit.Proofs.Descents
import ConnectorAudit.Proofs.Jumps

/-!
# Scans go on

A call for a token finds nothing left or gets further on, whether it reads the token or
gives up.  What makes it hard to see is what a scan undoes: an attempt that fails may have
gone far ahead, and a jump takes the reader across text.  But an attempt is undone only to
where it began, behind which at least one character is read, and a jump leads forwards.

The loops of a scan are written with a guard on what is left, and so is the jump.  None of
the guards ever bites.

* `Reader.loopsEnd`: the loops end without their guards;
* `Reader.Reached.bump_eq`: a jump is taken without its guard;
* `Reader.Reached.goesOn`, `Reader.Reached.yields_tokenAt`: a call for a token, and an attempt
  at one inside of an interpolation;
* `Token.bounded_scanLossyFrom`: how many tokens there are, and how deep they are nested;
* `Reader.scans_goOn`: all of it, for every source.
-/

namespace ConnectorAudit

/-! ## loops -/

namespace Reader

abbrev charactersLeft {α : Type} (s : α × Reader) : Nat := s.2.left

/-- One round of a scan that gives up at a fault. -/
def tokensRound (again : List Token × Reader → Except Fault (List Token)) :
    List Token × Reader → Except Fault (List Token)
  | (tokens, r) =>
    match r.step with
    | .done => .ok tokens.reverse
    | .token t s => again (t :: tokens, s)
    | .fault f _ _ => .error f

/-- One round of a scan that notes its faults. -/
def lossyRound (again : (List Token × List Fault) × Reader → List Token × List Fault) :
    (List Token × List Fault) × Reader → List Token × List Fault
  | ((tokens, faults), r) =>
    match r.step with
    | .done => (tokens.reverse, faults.reverse)
    | .token t s => again ((t :: tokens, faults), s)
    | .fault f t s => again ((t :: tokens, f :: faults), s)

/-- One round of the body of a literal. -/
def bodyRound (q : Quoting) (segment : SegmentReader)
    (again : (Nat × Quoted) × Reader → Except Failure (Quoted × Reader)) :
    (Nat × Quoted) × Reader → Except Failure (Quoted × Reader)
  | ((depth, body), r) =>
    match r.bump with
    | none => .error (r.unterminated q.what q.start)
    | some (c, s) =>
      if c = '\\' then
        match s.bump with
        | none => .error (s.unterminated q.what q.start)
        | some (e, t) => again ((depth, Quoted.pushEscaped q body e), t)
      else if q.interpolates && c == '#' && s.rest.head? == some '{' then
        match segment q (s.advance 1) with
        | .error failure => .error failure
        | .ok (tokens, t) =>
          again ((depth, { body with nested := body.nested ++ tokens, dynamic := true }), t)
      else
        let sigil := s.rest.head? == some '@' || s.rest.head? == some '$'
        let body :=
          if q.interpolates && c == '#' && sigil then { body with dynamic := true } else body
        if q.opener = some c then again ((depth + 1, body.push c), s)
        else if c = q.closer then
          match depth with
          | 0 => .ok (body, s)
          | depth + 1 => again ((depth, body.push c), s)
        else again ((depth, body.push c), s)

/-- One round of the tokens of a segment. -/
def segmentRound (q : Quoting) (token : Gap → Reader → Except Failure (Token × Reader))
    (again : (Nat × List Token) × Reader → Except Failure (List Token × Reader)) :
    (Nat × List Token) × Reader → Except Failure (List Token × Reader)
  | ((braces, tokens), r) =>
    let (gap, s) := r.skipTrivia
    match s.rest with
    | [] => .error (s.unterminated q.what q.start)
    | c :: _ =>
      if c = '}' ∧ braces = 0 then .ok (tokens.reverse, s.advance 1)
      else
        match token gap s with
        | .error failure => .error failure
        | .ok (t, u) =>
          let braces :=
            match t.kind with
            | .braceOpen => braces + 1
            | .braceClose => braces - 1
            | _ => braces
          again ((braces, t :: tokens), u.note t)

/-- Every step leaves less to read. -/
theorem left_lt_of_step {r s : Reader} {t : Token}
    (h : r.step = .token t s ∨ ∃ f, r.step = .fault f t s) : s.left < r.left :=
  (passes_step h).2.left_lt

/-- The loop over tokens ends. -/
theorem tokensFrom_ends :
    Ends charactersLeft tokensRound fun s => s.2.tokensFrom s.1 := by
  refine Descends.ends ?_ ?_
  · rintro f g ⟨tokens, r⟩ hfg
    simp only [tokensRound]
    split
    · rfl
    · next t s hstep => exact hfg (t :: tokens, s) (left_lt_of_step (.inl hstep))
    · rfl
  · rintro ⟨tokens, r⟩
    simp only [tokensRound]
    rw [tokensFrom]
    cases hstep : r.step with
    | done => rfl
    | token t s => exact if_pos (left_lt_of_step (.inl hstep))
    | fault f t s => rfl

/-- The loop over tokens ends that skips faults. -/
theorem lossyFrom_ends :
    Ends charactersLeft lossyRound fun s => s.2.lossyFrom s.1.1 s.1.2 := by
  refine Descends.ends ?_ ?_
  · rintro f g ⟨⟨tokens, faults⟩, r⟩ hfg
    simp only [lossyRound]
    split
    · rfl
    · next t s hstep => exact hfg ((t :: tokens, faults), s) (left_lt_of_step (.inl hstep))
    · next f t s hstep =>
      exact hfg ((t :: tokens, f :: faults), s) (left_lt_of_step (.inr ⟨f, hstep⟩))
  · rintro ⟨⟨tokens, faults⟩, r⟩
    simp only [lossyRound]
    rw [lossyFrom]
    cases hstep : r.step with
    | done => rfl
    | token t s => exact if_pos (left_lt_of_step (.inl hstep))
    | fault f t s => exact if_pos (left_lt_of_step (.inr ⟨f, hstep⟩))

/-- Behind a segment there is less to read than before its `#`. -/
theorem left_lt_of_segment {n : Nat} {segment : SegmentReader} (hsegment : SegmentYields n segment)
    {q : Quoting} {c : Char} {r s t : Reader} {tokens : List Token} (hbump : r.bump = some (c, s))
    (hread : segment q (s.advance 1) = .ok (tokens, t)) : t.left < r.left :=
  calc
    t.left ≤ (s.advance 1).left := ((hsegment q _).ok hread).2.left_le
    _ ≤ s.left := left_advance_le s 1
    _ < r.left := left_bump hbump

/-- The loop over the body of a quotation ends. -/
theorem body_ends {n : Nat} {segment : SegmentReader} (hsegment : SegmentYields n segment)
    (q : Quoting) :
    Ends charactersLeft (bodyRound q segment) fun s => q.body segment s.1.1 s.1.2 s.2 := by
  refine Descends.ends ?_ ?_
  · rintro f g ⟨⟨depth, body⟩, r⟩ hfg
    simp only [bodyRound]
    split
    · rfl
    · next c s hbump =>
      have hs : ∀ x, f (x, s) = g (x, s) := fun x => hfg (x, s) (left_bump hbump)
      split
      · split
        · rfl
        · next e t hbump' =>
          exact hfg (_, t) (Nat.lt_trans (left_bump hbump') (left_bump hbump))
      · split
        · split
          · rfl
          · next tokens t hread => exact hfg (_, t) (left_lt_of_segment hsegment hbump hread)
        · split
          · exact hs _
          · split
            · cases depth with
              | zero => rfl
              | succ depth => exact hs _
            · exact hs _
  · rintro ⟨⟨depth, body⟩, r⟩
    simp only [bodyRound]
    rw [Quoting.body_eq]
    cases hbump : r.bump with
    | none => rfl
    | some next =>
      obtain ⟨c, s⟩ := next
      simp only
      split
      · rfl
      · split
        · cases hread : segment q (s.advance 1) with
          | error failure => rfl
          | ok next =>
            obtain ⟨tokens, t⟩ := next
            exact if_pos (left_lt_of_segment hsegment hbump hread)
        · rfl

/-- Behind a token of a segment there is less to read than before it. -/
theorem left_lt_of_segmentToken {n : Nat}
    {token : Gap → Reader → Except Failure (Token × Reader)} (htoken : TokenYields n token)
    {r u : Reader} {t : Token} (hne : r.skipTrivia.2.rest ≠ [])
    (hread : token r.skipTrivia.1 r.skipTrivia.2 = .ok (t, u)) : u.left < r.left :=
  Nat.lt_of_lt_of_le ((htoken _ _ hne).ok hread).2.left_lt (r.leads_skipTrivia {}).left_le

/-- The loop over the tokens of a segment ends. -/
theorem segmentTokens_ends {n : Nat} {token : Gap → Reader → Except Failure (Token × Reader)}
    (htoken : TokenYields n token) (q : Quoting) :
    Ends charactersLeft (segmentRound q token)
      fun s => q.segmentTokens token s.1.1 s.1.2 s.2 := by
  refine Descends.ends ?_ ?_
  · rintro f g ⟨⟨braces, tokens⟩, r⟩ hfg
    simp only [segmentRound]
    split
    · rfl
    · next c cs hrest =>
      split
      · rfl
      · split
        · rfl
        · next t u hread =>
          refine hfg (_, u.note t) ?_
          rw [charactersLeft, left_note]
          exact left_lt_of_segmentToken htoken (by simp [hrest]) hread
  · rintro ⟨⟨braces, tokens⟩, r⟩
    simp only [segmentRound]
    rw [Quoting.segmentTokens]
    simp only
    cases hrest : r.skipTrivia.2.rest with
    | nil => rfl
    | cons c cs =>
      simp only
      split
      · rfl
      · cases hread : token r.skipTrivia.1 r.skipTrivia.2 with
        | error failure => rfl
        | ok next =>
          obtain ⟨t, u⟩ := next
          exact if_pos (left_lt_of_segmentToken htoken (by simp [hrest]) hread)

/-- The loops of a scan end without their guards, because of the characters left. -/
structure LoopsEnd : Prop where
  tokens : Ends charactersLeft tokensRound fun s => s.2.tokensFrom s.1
  lossy : Ends charactersLeft lossyRound fun s => s.2.lossyFrom s.1.1 s.1.2
  body : ∀ levels q, Ends charactersLeft (bodyRound q (segmentAt levels))
    fun s => q.body (segmentAt levels) s.1.1 s.1.2 s.2
  segment : ∀ levels q, Ends charactersLeft (segmentRound q (tokenAt levels))
    fun s => q.segmentTokens (tokenAt levels) s.1.1 s.1.2 s.2

/-- Every loop of a scan ends. -/
theorem loopsEnd : LoopsEnd where
  tokens := tokensFrom_ends
  lossy := lossyFrom_ends
  body levels q := body_ends (segmentYields_segmentAt levels) q
  segment levels q := segmentTokens_ends (tokenYields_tokenAt levels) q

/-! ## jumps -/

/-- Reads a character as `bump` does, but takes the jump wherever it leads. -/
def bumpFreely (r : Reader) : Option (Char × Reader) :=
  match r.cursor.next? with
  | none => none
  | some (c, cursor) =>
    match r.jump with
    | none => some (c, { r with cursor })
    | some jump =>
      if c = '\n' ∧ jump.bodyStart = cursor.offset then
        some (c, { r with cursor := jump.resume, jump := none })
      else some (c, { r with cursor })

variable {source : String} {r s : Reader}

/-- At a place of the source a character is read without looking where a jump leads. -/
theorem At.bump_eq {h : Heredocs} {i : Nat} (hr : r.At source h i) : r.bump = r.bumpFreely := by
  unfold Reader.bump bumpFreely
  cases hnext : r.cursor.next? with
  | none => rfl
  | some next =>
    obtain ⟨c, k⟩ := next
    rw [hr.cursor_eq] at hnext
    obtain ⟨hc, rfl⟩ := Cursor.next?_place_eq_some hnext
    unfold Reader.settle
    cases hjump : r.jump with
    | none => simp
    | some jump =>
      by_cases hfeed : c = '\n'
      · subst hfeed
        have hahead := hr.awaits_newline hc hjump
        simp only [↓reduceIte, hahead.1, hahead.2, and_self]
      · simp [hfeed]

/-- A jump that is taken leads forwards. -/
theorem Reached.bump_eq (hr : r.Reached source) : r.bump = r.bumpFreely := by
  rcases hr.standsSomewhere with ⟨i, hstands⟩ | ⟨hnil, -, -⟩
  · obtain ⟨h, hat⟩ := hstands.exists_at
    exact hat.bump_eq
  · have hnone := Cursor.next?_eq_none_iff.2 hnil
    simp [Reader.bump, bumpFreely, hnone]

/-! ## calls for a token -/

/-- What a call for the next token tries, if anything is left; a scan that gives up at a fault
leaves it at that. -/
def attempt (r : Reader) : Option (Except Failure (Token × Reader)) :=
  if r.ended then none
  else
    let (gap, s) := r.skipTrivia
    if s.ended || s.rest.isEmpty then none else some (tokenAt interpolationLimit gap s)

/-- A call for the next token finds nothing left, or gets further on: behind the token, or where
the attempt is given up, and behind the stray token too where the attempt is undone. -/
inductive GoesOn (r : Reader) : Prop
  | done (hattempt : r.attempt = none) (hstep : r.step = .done)
  | token {t : Token} {s : Reader} (hattempt : r.attempt = some (.ok (t, s)))
      (hstep : r.step = .token t (s.note t)) (hlt : r.cursor.offset < s.cursor.offset)
  | fault {f : Failure} {t : Token} {s : Reader} (hattempt : r.attempt = some (.error f))
      (hstep : r.step = .fault f.fault t s) (hlt : r.cursor.offset < f.cursor.offset)
      (hundone : r.cursor.offset < s.cursor.offset)

/-- Moves that leave less to read lead to a later byte. -/
theorem Reached.offset_lt_of_passes (hr : r.Reached source) (hs : r.Passes s) :
    r.cursor.offset < s.cursor.offset :=
  hr.offset_lt (hr.onto hs.leads) hs.left_lt

/-- What is led to is no earlier in the source. -/
theorem Reached.offset_le_of_leads (hr : r.Reached source) (hs : r.Leads s) :
    r.cursor.offset ≤ s.cursor.offset :=
  hr.offset_le (hr.onto hs) hs.left_le

/-- A reader that is reached goes on. -/
theorem Reached.goesOn (hr : r.Reached source) : r.GoesOn := by
  have hskips := r.leads_skipTrivia {}
  by_cases hended : r.ended = true
  · exact .done (by simp [attempt, hended]) (by simp [step, hended])
  by_cases hleft : (r.skipTrivia.2.ended || r.skipTrivia.2.rest.isEmpty) = true
  · exact .done (by simp [attempt, hleft]) (by simp [step, hleft])
  have hattempt : r.attempt = some (tokenAt interpolationLimit r.skipTrivia.1 r.skipTrivia.2) := by
    simp only [attempt, if_neg hended, if_neg hleft]
  have hne : r.skipTrivia.2.rest ≠ [] := fun hnil => hleft (by simp [hnil])
  have hyields := tokenYields_tokenAt interpolationLimit r.skipTrivia.1 r.skipTrivia.2 hne
  cases hread : tokenAt interpolationLimit r.skipTrivia.1 r.skipTrivia.2 with
  | ok next =>
    obtain ⟨t, s⟩ := next
    have hstep : r.step = .token t (s.note t) := by
      simp only [step, if_neg hended, if_neg hleft, hread]
    exact .token (hread ▸ hattempt) hstep
      (hr.offset_lt_of_passes (.into hskips (hyields.ok hread).2))
  | error f =>
    have hstep : ∃ t s, r.step = .fault f.fault t s := by
      simp only [step, if_neg hended, if_neg hleft, hread]
      exact ⟨_, _, rfl⟩
    obtain ⟨t, s, hstep⟩ := hstep
    exact .fault (hread ▸ hattempt) hstep
      (hr.offset_lt_of_passes (.into hskips (hyields.error hread)))
      (hr.offset_lt_of_passes (Follows.passes (.inr ⟨f.fault, t, hstep⟩)))

/-- An attempt at a token does not go back, whatever comes of it. -/
theorem Reached.yields_tokenAt (hr : r.Reached source) (levels : Nat) (gap : Gap) :
    Yields (fun t => t.depth ≤ levels)
      (fun s => r.cursor.offset ≤ s.cursor.offset ∧
        (r.rest ≠ [] → r.cursor.offset < s.cursor.offset))
      (tokenAt levels gap r) := by
  by_cases hnil : r.rest = []
  · exact (Reader.yields_tokenAt levels gap r).mono fun hs =>
      ⟨hr.offset_le_of_leads hs, fun hne => absurd hnil hne⟩
  · refine (tokenYields_tokenAt levels gap r hnil).mono fun hs => ?_
    have hlt := hr.offset_lt_of_passes hs
    exact ⟨Nat.le_of_lt hlt, fun _ => hlt⟩

/-! ## how many tokens, and how deep -/

/-- There are at most as many steps as characters. -/
theorem length_trace_le (r : Reader) : r.trace.length ≤ r.left := by
  induction hn : r.left using Nat.strongRecOn generalizing r with
  | ind n ih =>
    subst hn
    rcases r.trace_cases with hnil | ⟨e, s, hstep, hcons⟩
    · rw [hnil]
      exact Nat.zero_le _
    · have hlt := left_lt_of_step hstep
      rw [hcons, List.length_cons]
      exact Nat.lt_of_le_of_lt (ih s.left hlt s rfl) hlt

/-- No token is deeper than interpolation may be. -/
theorem depth_le_of_mem_trace {e : Token × Option Fault} (he : e ∈ r.trace) :
    e.1.depth ≤ interpolationLimit := by
  induction hn : r.left using Nat.strongRecOn generalizing r with
  | ind n ih =>
    subst hn
    rcases r.trace_cases with hnil | ⟨d, s, hstep, hcons⟩
    · rw [hnil] at he
      cases he
    · rw [hcons] at he
      cases List.mem_cons.1 he with
      | inl he => exact he ▸ (passes_step hstep).1
      | inr he => exact ih s.left (left_lt_of_step hstep) he rfl

end Reader

namespace Token

/-- There are at most as many tokens as characters, and at most 32 lists of tokens hang below any
of them, one below the other. -/
structure Bounded (characters : Nat) (tokens : List Token) : Prop where
  length_le : tokens.length ≤ characters
  depth_le : ∀ t ∈ tokens, t.depth ≤ 32

/-- From a cursor there are no more tokens than characters left. -/
theorem bounded_scanLossyFrom (k : Cursor) : Bounded k.left (scanLossyFrom k).1 := by
  rw [scanLossyFrom, Reader.lossyFrom_eq, List.reverse_nil, List.nil_append]
  constructor
  · rw [List.length_map]
    exact Reader.length_trace_le _
  · intro t ht
    obtain ⟨e, he, rfl⟩ := List.mem_map.1 ht
    exact Reader.depth_le_of_mem_trace he

/-- There are no more tokens than characters. -/
theorem bounded_scanLossy (source : String) : Bounded source.length (scanLossy source).1 := by
  have hbounded := bounded_scanLossyFrom (.ofSource source)
  rwa [Cursor.ofSource_eq_place, Cursor.left_place, Nat.sub_zero, String.length_toList,
    ← Cursor.ofSource_eq_place] at hbounded

theorem bounded_scan {source : String} {tokens : List Token} (hok : scan source = .ok tokens) :
    Bounded source.length tokens := by
  rw [← scanLossyFrom_of_scan hok]
  exact bounded_scanLossy source

end Token

namespace Reader

/-- **Progress.** A scan of the source, from any byte of it, stays among the readers that are
reached.  From any of those a call for the next token gets further on, unless nothing is left, and
no jump leads back.  Nor does an attempt at a token inside of an interpolation, whether it succeeds
or fails.  So the loops end by themselves, and tokens are as few and as flat as they should be. -/
theorem scans_goOn (source : String) :
    (∀ start k, Cursor.at? source start = some k → (ofCursor k).Reached source) ∧
      KeptByScans (Reached source) ∧
      (∀ r, Reached source r → r.GoesOn ∧ r.bump = r.bumpFreely) ∧
      (∀ r levels gap, Reached source r →
        Yields (fun t => t.depth ≤ levels)
          (fun s => r.cursor.offset ≤ s.cursor.offset ∧
            (r.rest ≠ [] → r.cursor.offset < s.cursor.offset))
          (tokenAt levels gap r)) ∧
      LoopsEnd ∧
      (∀ start k, Cursor.at? source start = some k →
        Token.Bounded k.left (Token.scanLossyFrom k).1) ∧
      Token.Bounded source.length (Token.scanLossy source).1 ∧
      ∀ tokens, Token.scan source = .ok tokens → Token.Bounded source.length tokens :=
  ⟨fun _ _ => reached_ofCursor, keptByScans_reached source, fun _ hr => ⟨hr.goesOn, hr.bump_eq⟩,
    fun _ levels gap hr => hr.yields_tokenAt levels gap, loopsEnd,
    fun _ k _ => Token.bounded_scanLossyFrom k, Token.bounded_scanLossy source,
    fun _ => Token.bounded_scan⟩

/-- Two levels of interpolation, and a quote that nothing closes. -/
def nestedQuotes : String := "x \"#\x7b\"#\x7b1\x7d\"\x7d\" '"

theorem scans_goOn_nestedQuotes :
    (ofCursor (.ofSource nestedQuotes)).GoesOn ∧
      (Token.scanLossy nestedQuotes).1.map Token.depth = [0, 2, 0] ∧
      (Token.scanLossy nestedQuotes).2.length = 1 ∧
      Token.Bounded 15 (Token.scanLossy nestedQuotes).1 := by
  obtain ⟨hreached, -, hgoes, -, -, -, hlossy, -⟩ := scans_goOn nestedQuotes
  have hstart : Cursor.at? nestedQuotes 0 = some (.ofSource nestedQuotes) :=
    Cursor.at?_place (Nat.zero_le _)
  exact ⟨(hgoes _ (hreached 0 _ hstart)).1, by decide +kernel, by decide +kernel, hlossy⟩

end Reader

end ConnectorAudit
