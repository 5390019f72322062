import ConnectorAudit.Proofs.Forms
import ConnectorAudit.Token.Extent

/-!
# Loops that wait

A reader keeps the line of a loop keyword that may still take a `do`.  All of a
scan carries that line along unread, and the code of a segment never sees it; only
a `do` reads it, to open a body or not.  So two readers that differ in it read the
same tokens, but for the kinds of such words.

* `alike_tokenAt`: one token;
* `Reader.alike_step`: one step of a scan;
* `Reader.twins_trace`: all of it.
-/

namespace ConnectorAudit

namespace Reader

/-- The reader with another line of a loop. -/
def withLoop (r : Reader) (loop : Option Nat) : Reader := { r with loopLine := loop }

/-- What was read, with another line of a loop in the reader behind it. -/
def onLoop {α : Type} (loop : Option Nat) (p : α × Reader) : α × Reader := (p.1, p.2.withLoop loop)

@[simp]
theorem onLoop_mk {α : Type} (loop : Option Nat) (a : α) (s : Reader) :
    onLoop loop (a, s) = (a, s.withLoop loop) := rfl

variable (r : Reader) (loop : Option Nat)

@[simp]
theorem cursor_withLoop : (r.withLoop loop).cursor = r.cursor := rfl

@[simp]
theorem rest_withLoop : (r.withLoop loop).rest = r.rest := rfl

@[simp]
theorem ended_withLoop : (r.withLoop loop).ended = r.ended := rfl

@[simp]
theorem advance_withLoop (n : Nat) : (r.withLoop loop).advance n = (r.advance n).withLoop loop :=
  rfl

@[simp]
theorem unterminated_withLoop (what : Unclosed) (k : Cursor) :
    (r.withLoop loop).unterminated what k = r.unterminated what k := rfl

@[simp]
theorem settle_withLoop : (r.withLoop loop).settle = r.settle.withLoop loop := by
  unfold settle withLoop
  simp only
  split
  · rfl
  · split <;> rfl

@[simp]
theorem bump_withLoop :
    (r.withLoop loop).bump = r.bump.map (onLoop loop) := by
  unfold bump
  rw [cursor_withLoop]
  split
  · rfl
  · next c k _ =>
    simp only [Option.map_some, onLoop]
    split
    · rw [← settle_withLoop]
      rfl
    · rfl

/-- One character of what separates tokens, without the proof that it is left behind. -/
theorem skipTrivia_eq (gap : Gap) :
    r.skipTrivia gap =
      match r.bump with
      | none => (gap, r)
      | some (c, s) =>
        if c = ' ' ∨ c = '\t' ∨ c = '\r' ∨ c = '\x0c' then s.skipTrivia { gap with space := true }
        else if c = '\n' then s.skipTrivia { space := true, newline := true }
        else if c = '\\' then
          match s.bump with
          | some ('\n', s') => s'.skipTrivia { gap with space := true }
          | _ => (gap, r)
        else if atDataMarker r.cursor then (gap, { r with cursor := r.cursor.atEnd, ended := true })
        else (gap, r) := by
  fun_cases skipTrivia r gap with
  | case1 hb => simp [hb]
  | case2 c s hb _ hblank => simp [hb, hblank]
  | case3 s hb => simp [hb]
  | case4 s t hb' _ hb => simp [hb, hb']
  | case5 s hno hb =>
    simp [hb]
  | case6 c s hb _ hblank hfeed hslash hmark => simp [hb, hblank, hfeed, hslash, hmark]
  | case7 c s hb _ hblank hfeed hslash hmark => simp [hb, hblank, hfeed, hslash, hmark]

/-- Passing blanks does not depend on the loop. -/
theorem skipTrivia_withLoop (gap : Gap) :
    (r.withLoop loop).skipTrivia gap = onLoop loop (r.skipTrivia gap) := by
  fun_induction skipTrivia r gap with
  | case1 r gap hb =>
    rw [skipTrivia_eq]
    simp [hb]
  | case2 r gap c s hb _ hblank ih =>
    rw [skipTrivia_eq]
    simp [hb, hblank, ih]
  | case3 r gap s hb _ hblank ih =>
    rw [skipTrivia_eq]
    simp [hb, ih]
  | case4 r gap s t hb' _ hb _ hblank hfeed ih =>
    rw [skipTrivia_eq]
    simp [hb, hb', ih]
  | case5 r gap s hno hb =>
    rw [skipTrivia_eq]
    cases hb' : s.bump with
    | none => simp [hb, hb']
    | some next =>
      obtain ⟨c, u⟩ := next
      have hc : c ≠ '\n' := fun hc => hno u (hc ▸ hb')
      simp [hb, hb', hc]
  | case6 r gap c s hb _ hblank hfeed hslash hmark =>
    rw [skipTrivia_eq]
    simp [hb, hblank, hfeed, hslash, hmark]
    rfl
  | case7 r gap c s hb _ hblank hfeed hslash hmark =>
    rw [skipTrivia_eq]
    simp [hb, hblank, hfeed, hslash, hmark]

/-- A stray character does not depend on the loop. -/
theorem stray_withLoop (gap : Gap) :
    (r.withLoop loop).stray gap = onLoop loop (r.stray gap) := by
  unfold stray
  cases hb : r.bump with
  | none => simp [hb]
  | some next => simp [hb, onLoop]

/-- A mark does not depend on the loop. -/
theorem punctuation_withLoop (gap : Gap) :
    (r.withLoop loop).punctuation gap = onLoop loop (r.punctuation gap) := by
  unfold punctuation
  rw [rest_withLoop]
  split
  · rfl
  · exact stray_withLoop r loop gap

/-- A name behind a sigil does not depend on the loop. -/
theorem sigilName_withLoop (gap : Gap) :
    (r.withLoop loop).sigilName gap = onLoop loop (r.sigilName gap) := by
  unfold sigilName
  by_cases hclass : r.cursor.startsWith "@@" = true
  · simp only [cursor_withLoop, rest_withLoop, hclass, if_true, advance_withLoop, bump_withLoop]
    split
    · cases (r.advance 2).bump <;> rfl
    · rfl
  · simp only [cursor_withLoop, rest_withLoop, hclass, Bool.false_eq_true, if_false,
      advance_withLoop, bump_withLoop]
    split
    · cases (r.advance 1).bump <;> rfl
    · rfl

/-- A block comment ends on the next line, or in the lines behind. -/
theorem blockCommentEnd?_eq :
    r.blockCommentEnd? =
      match (r.advance (runLength (· != '\n') r.rest)).bump with
      | none => none
      | some (_, next) =>
        if next.cursor.startsWith "=end" then
          some (next.advance (runLength (· != '\n') next.rest))
        else next.blockCommentEnd? := by
  fun_cases blockCommentEnd? r with
  | case1 lineEnd hb => simp only [lineEnd] at hb; simp [hb]
  | case2 lineEnd c next hb _ _ hend => simp only [lineEnd] at hb; simp [hb, hend]
  | case3 lineEnd c next hb _ _ hend => simp only [lineEnd] at hb; simp [hb, hend]

/-- The end of a block comment does not depend on the loop. -/
theorem blockCommentEnd?_withLoop :
    (r.withLoop loop).blockCommentEnd? = r.blockCommentEnd?.map (·.withLoop loop) := by
  fun_induction blockCommentEnd? r with
  | case1 r lineEnd hb =>
    rw [blockCommentEnd?_eq]
    simp only [lineEnd] at hb
    simp [hb]
  | case2 r lineEnd c next hb _ _ hend =>
    rw [blockCommentEnd?_eq]
    simp only [lineEnd] at hb
    simp [hb, hend]
  | case3 r lineEnd c next hb _ _ hend ih =>
    rw [blockCommentEnd?_eq]
    simp only [lineEnd] at hb
    simp [hb, hend, ih]

/-- The last line is this one, or in the lines behind. -/
theorem lastLineEnd_eq :
    r.lastLineEnd =
      match (r.advance (runLength (· != '\n') r.rest)).bump with
      | none => r.advance (runLength (· != '\n') r.rest)
      | some (_, next) => next.lastLineEnd := by
  fun_cases lastLineEnd r with
  | case1 lineEnd hb => simp only [lineEnd] at hb ⊢; simp [hb]
  | case2 lineEnd c next hb => simp only [lineEnd] at hb; simp [hb]

/-- The last line does not depend on the loop. -/
theorem lastLineEnd_withLoop :
    (r.withLoop loop).lastLineEnd = r.lastLineEnd.withLoop loop := by
  fun_induction lastLineEnd r with
  | case1 r lineEnd hb =>
    rw [lastLineEnd_eq]
    simp only [lineEnd] at hb ⊢
    simp [hb]
  | case2 r lineEnd c next hb _ _ ih =>
    rw [lastLineEnd_eq]
    simp only [lineEnd] at hb
    simp [hb, ih]

/-- A heredoc does not depend on the loop. -/
theorem heredoc_withLoop (gap : Gap) (m : Marker) :
    (r.withLoop loop).heredoc gap m = (r.heredoc gap m).map (onLoop loop) := by
  have hstart : ((r.withLoop loop).advance m.length).bodyStart? =
      (r.advance m.length).bodyStart? := rfl
  unfold heredoc
  simp only [hstart]
  split
  · rfl
  · split <;> rfl

/-- A block comment does not depend on the loop. -/
theorem blockComment_withLoop (gap : Gap) :
    (r.withLoop loop).blockComment gap = (r.blockComment gap).map (onLoop loop) := by
  unfold blockComment
  rw [blockCommentEnd?_withLoop]
  cases r.blockCommentEnd? with
  | none => simp [lastLineEnd_withLoop, Except.map]
  | some s => rfl

end Reader

/-! ## literals -/

/-- The segment is read alike whatever line a loop waits on. -/
def LoopFree (segment : SegmentReader) : Prop :=
  ∀ q r loop, segment q (r.withLoop loop) = (segment q r).map (Reader.onLoop loop)

/-- One character of a body, without the proof that it is left behind. -/
theorem Quoting.body_eq (q : Quoting) (segment : SegmentReader) (depth : Nat) (body : Quoted)
    (r : Reader) :
    q.body segment depth body r =
      match r.bump with
      | none => .error (r.unterminated q.what q.start)
      | some (c, s) =>
        if c = '\\' then
          match s.bump with
          | none => .error (s.unterminated q.what q.start)
          | some (e, t) => q.body segment depth (Quoted.pushEscaped q body e) t
        else if q.interpolates && c == '#' && s.rest.head? == some '{' then
          match segment q (s.advance 1) with
          | .error failure => .error failure
          | .ok (tokens, t) =>
            if t.left < r.left then
              q.body segment depth { body with nested := body.nested ++ tokens, dynamic := true } t
            else .error (t.unterminated q.what q.start)
        else
          let sigil := s.rest.head? == some '@' || s.rest.head? == some '$'
          let body :=
            if q.interpolates && c == '#' && sigil then { body with dynamic := true } else body
          if q.opener = some c then q.body segment (depth + 1) (body.push c) s
          else if c = q.closer then
            match depth with
            | 0 => .ok (body, s)
            | depth + 1 => q.body segment depth (body.push c) s
          else q.body segment depth (body.push c) s := by
  rw [Quoting.body]
  split
  · next hb => simp [hb]
  · next c s hb =>
    simp only [hb]
    split
    · split
      · next hb' => simp [hb']
      · next hb' => simp [hb']
    · rfl

/-- The body of a quotation does not depend on the loop if what it interpolates does not. -/
theorem LoopFree.body {segment : SegmentReader} (hsegment : LoopFree segment) (q : Quoting)
    (depth : Nat) (body : Quoted) (r : Reader) (loop : Option Nat) :
    q.body segment depth body (r.withLoop loop) =
      (q.body segment depth body r).map (Reader.onLoop loop) := by
  fun_induction Quoting.body q segment depth body r with
  | case1 depth body r hb =>
    rw [Quoting.body_eq]
    simp [hb, Except.map]
  | case2 depth body r s hb' hb =>
    rw [Quoting.body_eq]
    simp [hb, hb', Except.map]
  | case3 depth body r s e t hb' _ hb _ ih =>
    rw [Quoting.body_eq]
    simp [hb, hb', ih]
  | case4 depth body r c s hb _ hc hopens failure hread =>
    rw [Quoting.body_eq]
    simp only [Reader.bump_withLoop, hb, Option.map_some, Reader.onLoop_mk, if_neg hc,
      Reader.rest_withLoop, if_pos hopens, Reader.advance_withLoop, hsegment q, hread]
    rfl
  | case5 depth body r c s hb _ hc hopens tokens t hread hleft ih =>
    rw [Quoting.body_eq]
    simp only [Reader.bump_withLoop, hb, Option.map_some, Reader.onLoop_mk, if_neg hc,
      Reader.rest_withLoop, if_pos hopens, Reader.advance_withLoop, hsegment q, hread]
    exact (if_pos hleft).trans ih
  | case6 depth body r c s hb _ hc hopens tokens t hread hleft =>
    rw [Quoting.body_eq]
    simp only [Reader.bump_withLoop, hb, Option.map_some, Reader.onLoop_mk, if_neg hc,
      Reader.rest_withLoop, if_pos hopens, Reader.advance_withLoop, hsegment q, hread]
    exact if_neg hleft
  | case7 depth body r c s hb _ hc hopens _ _ hopener ih =>
    rw [Quoting.body_eq]
    simp only [Reader.bump_withLoop, hb, Option.map_some, Reader.onLoop_mk, if_neg hc,
      Reader.rest_withLoop, if_neg hopens, if_pos hopener]
    exact ih
  | case8 body r s _ hb _ hc hopens _ hopener =>
    rw [Quoting.body_eq]
    simp only [Reader.bump_withLoop, hb, Option.map_some, Reader.onLoop_mk, if_neg hc,
      Reader.rest_withLoop, if_neg hopens, if_neg hopener]
    rfl
  | case9 body r s _ depth hb _ hc hopens _ hopener ih =>
    rw [Quoting.body_eq]
    simp only [Reader.bump_withLoop, hb, Option.map_some, Reader.onLoop_mk, if_neg hc,
      Reader.rest_withLoop, if_neg hopens, if_neg hopener]
    exact ih
  | case10 depth body r c s hb _ hc hopens _ _ hopener hcloser ih =>
    rw [Quoting.body_eq]
    simp only [Reader.bump_withLoop, hb, Option.map_some, Reader.onLoop_mk, if_neg hc,
      Reader.rest_withLoop, if_neg hopens, if_neg hopener, if_neg hcloser]
    exact ih

/-- What is made of a result, if it is made alike. -/
theorem Reader.bind_onLoop {α β : Type} {loop : Option Nat} {x : Except Failure (α × Reader)}
    {f g : α × Reader → Except Failure (β × Reader)}
    (hfg : ∀ a s, f (a, s.withLoop loop) = (g (a, s)).map (onLoop loop)) :
    (x.map (onLoop loop) >>= f) = (x >>= g).map (onLoop loop) := by
  cases x with
  | error failure => rfl
  | ok result => exact hfg result.1 result.2

namespace LoopFree

variable {segment : SegmentReader} (hsegment : LoopFree segment) (r : Reader) (loop : Option Nat)
include hsegment

/-- A quotation does not depend on the loop. -/
theorem quotation (gap : Gap) (quote : Char) :
    (r.withLoop loop).quotation segment gap quote =
      (r.quotation segment gap quote).map (Reader.onLoop loop) := by
  unfold Reader.quotation
  simp only [Reader.cursor_withLoop, Reader.advance_withLoop, hsegment.body]
  refine Reader.bind_onLoop fun body s => ?_
  change (if (_ && _ && !s.afterQuestion && labelColon s.rest) = true then _ else _) = _
  split <;> rfl

theorem quotedSymbol (gap : Gap) (quote : Char) :
    (r.withLoop loop).quotedSymbol segment gap quote =
      (r.quotedSymbol segment gap quote).map (Reader.onLoop loop) := by
  unfold Reader.quotedSymbol
  simp only [Reader.cursor_withLoop, Reader.advance_withLoop, hsegment.body]
  exact Reader.bind_onLoop fun body s => rfl

/-- A regex does not depend on the loop. -/
theorem regex (gap : Gap) :
    (r.withLoop loop).regex segment gap = (r.regex segment gap).map (Reader.onLoop loop) := by
  unfold Reader.regex
  simp only [Reader.cursor_withLoop, Reader.advance_withLoop, hsegment.body]
  exact Reader.bind_onLoop fun body s => rfl

/-- A literal behind a percent sign does not depend on the loop. -/
theorem percent (gap : Gap) (head : PercentHead) :
    (r.withLoop loop).percent segment gap head =
      (r.percent segment gap head).map (Reader.onLoop loop) := by
  unfold Reader.percent
  simp only [Reader.cursor_withLoop, Reader.advance_withLoop, hsegment.body]
  refine Reader.bind_onLoop fun body s => ?_
  simp only
  split <;> rfl

/-- What a colon begins does not depend on the loop. -/
theorem colon (gap : Gap) :
    (r.withLoop loop).colon segment gap = (r.colon segment gap).map (Reader.onLoop loop) := by
  unfold Reader.colon
  rw [Reader.rest_withLoop, Reader.punctuation_withLoop]
  split
  · rfl
  · next c cs _ =>
    split
    · exact hsegment.quotedSymbol r loop gap c
    · split
      · rfl
      · change (if c ≠ ':' ∧ r.valueExpected then _ else _) = _
        split
        · split <;> rfl
        · rfl

/-- A slash does not depend on the loop, be it a regex or a mark. -/
theorem regexOrSlash (gap : Gap) :
    (r.withLoop loop).regexOrSlash segment gap =
      Reader.onLoop loop (r.regexOrSlash segment gap) := by
  have hgiven : ∀ ended : Bool, { r.withLoop loop with ended }.punctuation gap =
      Reader.onLoop loop ({ r with ended }.punctuation gap) :=
    fun ended => Reader.punctuation_withLoop { r with ended } loop gap
  unfold Reader.regexOrSlash
  rw [hsegment.regex]
  cases r.regex segment gap with
  | error failure => exact hgiven failure.ended
  | ok result =>
    obtain ⟨t, s⟩ := result
    change (if t.text.toList.contains '\n' then _ else _) = _
    simp only
    split
    · exact hgiven s.ended
    · rfl

end LoopFree

/-! ## words -/

/-- One token, but that a `do` may be a name in the one and open a body in the other. -/
inductive Token.Twin : Token → Token → Prop
  | refl (t : Token) : Twin t t
  | loop (t : Token) (kind : Kind) (htext : t.text = "do")
      (hone : t.kind = .identifier ∨ t.kind = .blockStart)
      (hother : kind = .identifier ∨ kind = .blockStart) : Twin t { t with kind }

namespace Token.Twin

variable {t u : Token}

theorem stop_eq (h : t.Twin u) : u.stop = t.stop := by
  cases h <;> rfl

/-- Twins are the same delimiters. -/
theorem isDelimiter_eq (h : t.Twin u) (c : Char) :
    Extent.isDelimiter u c = Extent.isDelimiter t c := by
  cases h with
  | refl => rfl
  | loop kind htext hone hother =>
    have hnone : ∀ t : Token, t.kind = .identifier ∨ t.kind = .blockStart →
        Extent.isDelimiter t c = false := by
      rintro t (hkind | hkind) <;> simp [Extent.isDelimiter, hkind]
    rw [hnone t hone, hnone { t with kind } hother]

/-- The two let the same follow. -/
theorem note (h : t.Twin u) (r : Reader) (loop : Option Nat) :
    (r.withLoop loop).note u = (r.note t).withLoop loop := by
  have hstanding : ∀ t : Token, t.text = "do" → t.kind = .identifier ∨ t.kind = .blockStart →
      t.standing = some .start ∧ t.isPunct "?" = false := by
    rintro t htext (hkind | hkind) <;> simp [Token.standing, Token.isPunct, hkind, htext,
      valueKeywords]
  have hsame : (r.withLoop loop).note t = (r.note t).withLoop loop := by
    unfold Reader.note
    split <;> rfl
  cases h with
  | refl => exact hsame
  | loop kind htext hone hother =>
    rw [← hsame]
    obtain ⟨hs, hp⟩ := hstanding t htext hone
    obtain ⟨hs', hp'⟩ := hstanding { t with kind } htext hother
    simp only [Reader.note, hs, hs', hp, hp']

end Token.Twin

/-- Both read the like, or neither does. -/
inductive Alike : Except Failure (Token × Reader) → Except Failure (Token × Reader) → Prop
  | error (failure : Failure) : Alike (.error failure) (.error failure)
  | ok {t u : Token} (h : t.Twin u) (s : Reader) (loop : Option Nat) :
      Alike (.ok (t, s)) (.ok (u, s.withLoop loop))

/-- What does not depend on the loop is read alike. -/
theorem Alike.of_map (x : Except Failure (Token × Reader)) (loop : Option Nat) :
    Alike x (x.map (Reader.onLoop loop)) := by
  cases x with
  | error failure => exact .error failure
  | ok result => exact .ok (.refl _) _ loop

namespace Reader

/-- A `do` is a name or opens a body. -/
theorem wordKind_do (r : Reader) :
    (r.wordKind "do").1 = .identifier ∨ (r.wordKind "do").1 = .blockStart := by
  unfold wordKind
  by_cases hline : r.loopLine = some r.cursor.line
  · simp only [String.reduceEq, if_false, if_true, if_pos hline]
    exact .inl (by split <;> rfl)
  · simp only [String.reduceEq, if_false, if_true, if_neg hline]
    split
    · exact .inl rfl
    · exact .inr rfl

/-- No other word depends on the loop that waits for one. -/
theorem wordKind_withLoop (r : Reader) (loop : Option Nat) {text : String} (htext : text ≠ "do") :
    ((r.withLoop loop).wordKind text).1 = (r.wordKind text).1 := by
  have hposition : (r.withLoop loop).statementPosition r.cursor.line =
      r.statementPosition r.cursor.line := rfl
  have hprevious : (r.withLoop loop).previous = r.previous := rfl
  unfold wordKind
  simp only [cursor_withLoop, hposition, hprevious, if_neg htext]
  repeat' split
  all_goals rfl

/-- A word is read alike, but for what the loop makes of a `do`. -/
theorem alike_word (r : Reader) (loop : Option Nat) (gap : Gap) :
    Alike (.ok (r.word gap)) (.ok ((r.withLoop loop).word gap)) := by
  have hquestion : (r.withLoop loop).afterQuestion = r.afterQuestion := rfl
  unfold word
  simp only [rest_withLoop, hquestion]
  split
  · exact .ok (.refl _) _ loop
  · generalize htext : String.ofList (r.rest.take (wordLength r.rest)) = text
    by_cases hdo : text = "do"
    · subst hdo
      refine .ok (.loop _ _ ?_ r.wordKind_do (r.withLoop loop).wordKind_do) _ _
      rw [← htext]
      exact Cursor.textTo_advance r.cursor _
    · rw [r.wordKind_withLoop loop hdo]
      exact .ok (.refl _) _ _

end Reader

/-! ## tokens -/

/-- Whatever token is read, a loop that waits changes no more than the kind of a `do`. -/
theorem LoopFree.alike_tokenWith {segment : SegmentReader} (hsegment : LoopFree segment)
    (gap : Gap) (r : Reader) (loop : Option Nat) :
    Alike (Reader.tokenWith segment gap r) (Reader.tokenWith segment gap (r.withLoop loop)) := by
  have hof : ∀ {x y : Except Failure (Token × Reader)}, y = x.map (Reader.onLoop loop) →
      Alike x y := by
    rintro x _ rfl
    exact .of_map x loop
  have hexpected : (r.withLoop loop).valueExpected = r.valueExpected := rfl
  have hfollows : (r.withLoop loop).argumentFollows gap = r.argumentFollows gap := rfl
  have hpunctuation : Alike (.ok (r.punctuation gap)) (.ok ((r.withLoop loop).punctuation gap)) :=
    hof (congrArg _ (r.punctuation_withLoop loop gap))
  unfold Reader.tokenWith
  simp only [Reader.rest_withLoop, Reader.cursor_withLoop, hexpected, hfollows]
  split
  · exact .error _
  · next c cs hrest =>
    by_cases hcomment : c = '#'
    · rw [if_pos hcomment, if_pos hcomment]
      exact hof rfl
    rw [if_neg hcomment, if_neg hcomment]
    by_cases hblock : c = '=' ∧ Reader.opensBlockComment r.cursor
    · rw [if_pos hblock, if_pos hblock]
      exact hof (r.blockComment_withLoop loop gap)
    rw [if_neg hblock, if_neg hblock]
    by_cases hquote : c = '\'' ∨ c = '"' ∨ c = '\x60'
    · rw [if_pos hquote, if_pos hquote]
      exact hof (hsegment.quotation r loop gap c)
    rw [if_neg hquote, if_neg hquote]
    by_cases hopen : c = '{'
    · rw [if_pos hopen, if_pos hopen]
      exact hof rfl
    rw [if_neg hopen, if_neg hopen]
    by_cases hclose : c = '}'
    · rw [if_pos hclose, if_pos hclose]
      exact hof rfl
    rw [if_neg hclose, if_neg hclose]
    by_cases hcolon : c = ':'
    · rw [if_pos hcolon, if_pos hcolon]
      exact hof (hsegment.colon r loop gap)
    rw [if_neg hcolon, if_neg hcolon]
    by_cases hslash : c = '/'
    · rw [if_pos hslash, if_pos hslash]
      cases r.valueExpected with
      | true => exact hof (hsegment.regex r loop gap)
      | false =>
        cases r.argumentFollows gap with
        | true => exact hof (congrArg Except.ok (hsegment.regexOrSlash r loop gap))
        | false => exact hpunctuation
    rw [if_neg hslash, if_neg hslash]
    by_cases hpercent : c = '%'
    · rw [if_pos hpercent, if_pos hpercent]
      cases PercentHead.ofChars? r.rest with
      | none => exact hpunctuation
      | some head =>
        cases r.valueExpected || r.argumentFollows gap with
        | true => exact hof (hsegment.percent r loop gap head)
        | false => exact hpunctuation
    rw [if_neg hpercent, if_neg hpercent]
    by_cases hmark : c = '<'
    · rw [if_pos hmark, if_pos hmark]
      cases Marker.ofChars? r.rest with
      | none => exact hpunctuation
      | some marker =>
        cases r.valueExpected || r.argumentFollows gap with
        | true => exact hof (r.heredoc_withLoop loop gap marker)
        | false => exact hpunctuation
    rw [if_neg hmark, if_neg hmark]
    by_cases hsigil : c = '@' ∨ c = '$'
    · rw [if_pos hsigil, if_pos hsigil]
      exact hof (congrArg _ (r.sigilName_withLoop loop gap))
    rw [if_neg hsigil, if_neg hsigil]
    cases c.isDigit with
    | true => exact hof rfl
    | false =>
      cases isNameStart c with
      | true => exact r.alike_word loop gap
      | false => exact hpunctuation

/-- The code of a segment never sees a loop that waits outside of it. -/
theorem loopFree_segmentWith (token : Gap → Reader → Except Failure (Token × Reader)) :
    LoopFree (segmentWith token) := by
  intro q r loop
  unfold segmentWith
  simp only [Reader.withLoop]
  split <;> rfl

/-- Every token is read alike, whatever the loop. -/
theorem alike_tokenAt (levels : Nat) (gap : Gap) (r : Reader) (loop : Option Nat) :
    Alike (Reader.tokenAt levels gap r) (Reader.tokenAt levels gap (r.withLoop loop)) := by
  cases levels with
  | zero =>
    refine LoopFree.alike_tokenWith ?_ gap r loop
    exact fun q r loop => rfl
  | succ levels => exact (loopFree_segmentWith _).alike_tokenWith gap r loop

namespace Reader

/-- Both steps read the like, or neither does. -/
inductive Step.Alike : Step → Step → Prop
  | done : Alike .done .done
  | token {t u : Token} (h : t.Twin u) (s : Reader) (loop : Option Nat) :
      Alike (.token t s) (.token u (s.withLoop loop))
  | fault (f : Fault) (t : Token) (s : Reader) (loop : Option Nat) :
      Alike (.fault f t s) (.fault f t (s.withLoop loop))

/-- A step is taken alike, whatever the loop. -/
theorem alike_step (r : Reader) (loop : Option Nat) : r.step.Alike (r.withLoop loop).step := by
  unfold step
  rw [skipTrivia_withLoop, ended_withLoop]
  split
  · exact .done
  · obtain ⟨gap, s⟩ := r.skipTrivia
    simp only [onLoop_mk, ended_withLoop, rest_withLoop]
    by_cases hdone : (s.ended || s.rest.isEmpty) = true
    · simp only [hdone, if_true]
      exact .done
    · simp only [hdone]
      have hread := alike_tokenAt interpolationLimit gap s loop
      generalize tokenAt interpolationLimit gap s = x at hread ⊢
      generalize tokenAt interpolationLimit gap (s.withLoop loop) = y at hread ⊢
      cases hread with
      | error failure =>
        have hstray : { s.withLoop loop with ended := failure.ended }.stray gap =
            onLoop loop ({ s with ended := failure.ended }.stray gap) :=
          stray_withLoop { s with ended := failure.ended } loop gap
        simp only [hstray, onLoop, (Token.Twin.refl _).note]
        exact .fault _ _ _ loop
      | ok htwin u loop' =>
        simp only [htwin.note]
        exact .token htwin _ loop'

/-- The tokens read are the same, but for the kinds of some `do`. -/
theorem twins_trace (r : Reader) (loop : Option Nat) :
    List.Forall₂ Token.Twin (r.trace.map Prod.fst) ((r.withLoop loop).trace.map Prod.fst) := by
  have hlater : ∀ {r s : Reader} {loop : Option Nat}, (s.left < r.left →
        ∀ loop, List.Forall₂ Token.Twin (s.trace.map Prod.fst)
          ((s.withLoop loop).trace.map Prod.fst)) →
      List.Forall₂ Token.Twin ((if s.left < r.left then s.trace else []).map Prod.fst)
        ((if s.left < r.left then (s.withLoop loop).trace else []).map Prod.fst) := by
    intro r s loop ih
    split
    · next hleft => exact ih hleft loop
    · exact .nil
  fun_induction trace r generalizing loop with
  | case1 r hstep =>
    have halike := r.alike_step loop
    rw [hstep] at halike
    rw [trace.eq_def (r.withLoop loop)]
    generalize (r.withLoop loop).step = x at halike ⊢
    cases halike
    exact .nil
  | case2 r t s hstep ih =>
    have halike := r.alike_step loop
    rw [hstep] at halike
    rw [trace.eq_def (r.withLoop loop)]
    generalize (r.withLoop loop).step = x at halike ⊢
    cases halike with
    | token htwin _ loop' => exact .cons htwin (hlater ih)
  | case3 r f t s hstep ih =>
    have halike := r.alike_step loop
    rw [hstep] at halike
    rw [trace.eq_def (r.withLoop loop)]
    generalize (r.withLoop loop).step = x at halike ⊢
    cases halike
    exact .cons (.refl t) (hlater ih)

end Reader

end ConnectorAudit
