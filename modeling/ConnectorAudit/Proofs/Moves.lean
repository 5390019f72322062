import ConnectorAudit.Proofs.Scans

/-!
# The moves of a reader

There are few ways in which a reader gets from one place to another: past any
character, along a line, past the marker of a heredoc, and from the data marker
to the end.  All that a scan does is made of them, whether it comes to a token or
gives up, and an attempt that is undone goes back to where it began.  So what
every move keeps holds wherever a reader can get, inside of tokens too.

* `Reader.Moves`, `Reader.Leads`: a move, and moves one after the other;
* `Reader.Yields`: what is read, and where the reader gets, in success and in failure;
* `tokenYields_tokenAt`: reading a token leads on, and strictly so if anything is left.
-/

namespace ConnectorAudit

/-! ## how deep tokens are nested -/

namespace Token

mutual
/-- How many lists of tokens hang below the token, one below the other. -/
def depth : Token → Nat
  | ⟨_, _, _, _, _, _, nested, _⟩ => depthAll nested
/-- How many lists of tokens there are one below the other, this one included. -/
def depthAll : List Token → Nat
  | [] => 0
  | t :: ts => max (t.depth + 1) (depthAll ts)
end

theorem depth_eq (t : Token) : t.depth = depthAll t.nested := by
  cases t
  rw [depth]

/-- Tokens are no deeper than `n` if each of them is less deep. -/
theorem depthAll_le_iff {ts : List Token} {n : Nat} :
    depthAll ts ≤ n ↔ ∀ t ∈ ts, t.depth < n := by
  induction ts with
  | nil => simp [depthAll]
  | cons t ts ih => rw [depthAll, Nat.max_le, ih, List.forall_mem_cons, Nat.succ_le_iff]

/-- A token is one deeper than what is nested in it. -/
theorem depth_between_le {kind : Kind} {gap : Gap} {k stop : Cursor} {value : Option String}
    {nested : List Token} {n : Nat} (h : ∀ t ∈ nested, t.depth < n) :
    (between kind gap k stop value nested).depth ≤ n := by
  rw [depth_eq]
  exact depthAll_le_iff.2 h

end Token

/-! ## moves -/

/-- The reader where an attempt was given up. -/
def Failure.reader (f : Failure) : Reader :=
  { cursor := f.cursor, jump := f.jump, ended := f.ended }

namespace Reader

/-- A move of a reader. -/
inductive Moves : Reader → Reader → Prop
  /-- Past a character, and over the heredocs if it ends a line. -/
  | bump {r s : Reader} {c : Char} (h : r.bump = some (c, s)) : Moves r s
  /-- Along a line. -/
  | advance {r : Reader} {n : Nat} (h : Inline n r.rest) : Moves r (r.advance n)
  /-- Past a marker, whose heredoc is announced. -/
  | heredoc {r s : Reader} {m : Marker} {gap : Gap} {t : Token}
      (hm : Marker.ofChars? r.rest = some m) (h : r.heredoc gap m = .ok (t, s)) : Moves r s
  /-- From the data marker to the end. -/
  | data {r : Reader} (h : atDataMarker r.cursor = true) :
      Moves r { r with cursor := r.cursor.atEnd, ended := true }
  /-- What a reader keeps of the tokens before it changes, and not its place. -/
  | stay {r s : Reader} (hcursor : s.cursor = r.cursor) (hjump : s.jump = r.jump) : Moves r s

abbrev Leads : Reader → Reader → Prop := Relation.ReflTransGen Moves

/-- They do, and leave less to read. -/
structure Passes (r s : Reader) : Prop where
  leads : r.Leads s
  left_lt : s.left < r.left

variable {r s u : Reader}

/-- A heredoc moves behind its marker only. -/
theorem cursor_heredoc {gap : Gap} {m : Marker} {t : Token} (h : r.heredoc gap m = .ok (t, s)) :
    s.cursor = (r.advance m.length).cursor := by
  unfold heredoc at h
  simp only at h
  split at h
  · cases h
  · split at h
    · cases h
    · obtain ⟨-, rfl⟩ := Prod.mk.inj (Except.ok.inj h)
      rfl

theorem left_advance_le (r : Reader) (n : Nat) : (r.advance n).left ≤ r.left :=
  Cursor.left_advance_le r.cursor n

/-- No move goes back. -/
theorem Moves.left_le (h : Moves r s) : s.left ≤ r.left := by
  cases h with
  | bump h => exact Nat.le_of_lt (left_bump h)
  | advance => exact left_advance_le r _
  | heredoc hm h =>
    rw [left, cursor_heredoc h]
    exact left_advance_le r _
  | data => exact Nat.zero_le _
  | stay hcursor => exact Nat.le_of_eq (congrArg Cursor.left hcursor)

/-- A reader that is led to has no more left. -/
theorem Leads.left_le (h : r.Leads s) : s.left ≤ r.left := by
  induction h with
  | refl => exact Nat.le_refl _
  | tail _ hmove ih => exact Nat.le_trans hmove.left_le ih

/-- What moves keep holds wherever they lead. -/
theorem Leads.keeps {P : Reader → Prop} (hmove : ∀ {r s : Reader}, Moves r s → P r → P s)
    (h : r.Leads s) (hr : P r) : P s := by
  induction h with
  | refl => exact hr
  | tail _ hs ih => exact hmove hs ih

/-- A reader that only changes its memory is led to. -/
theorem leads_stay (hcursor : s.cursor = r.cursor) (hjump : s.jump = r.jump) : r.Leads s :=
  .single (.stay hcursor hjump)

/-- Going on within a line leads on. -/
theorem leads_advance {n : Nat} (h : Inline n r.rest) : r.Leads (r.advance n) :=
  .single (.advance h)

theorem jump_note (r : Reader) (t : Token) : (r.note t).jump = r.jump := by
  unfold note
  split <;> rfl

/-- Keeping a token leads on. -/
theorem leads_note (r : Reader) (t : Token) : r.Leads (r.note t) :=
  leads_stay (cursor_note r t) (jump_note r t)

/-- Where an attempt is given up is where the reader stands. -/
theorem leads_failure (r : Reader) (fault : Fault) : r.Leads (r.failure fault).reader :=
  leads_stay rfl rfl

namespace Passes

/-- What leads on behind something that passes still passes. -/
theorem onto (h : r.Passes s) (hu : s.Leads u) : r.Passes u :=
  ⟨h.leads.trans hu, Nat.lt_of_le_of_lt hu.left_le h.left_lt⟩

/-- What passes behind something that leads on still passes. -/
theorem into (hs : r.Leads s) (h : s.Passes u) : r.Passes u :=
  ⟨hs.trans h.leads, Nat.lt_of_lt_of_le h.left_lt hs.left_le⟩

/-- A character is passed. -/
theorem bump {c : Char} (h : r.bump = some (c, s)) : r.Passes s :=
  ⟨.single (.bump h), left_bump h⟩

/-- Some characters of a line are passed. -/
theorem advance {n : Nat} (hne : r.rest ≠ []) (hn : 0 < n) (h : Inline n r.rest) :
    r.Passes (r.advance n) := by
  refine ⟨leads_advance h, ?_⟩
  cases hnext : r.cursor.next? with
  | none => exact absurd (Cursor.next?_eq_none_iff.1 hnext) hne
  | some next =>
    obtain ⟨c, k⟩ := next
    obtain ⟨n, rfl⟩ := Nat.exists_eq_add_of_lt hn
    have hadvance : (r.advance (0 + n + 1)).left = (k.advance n).left := by
      rw [left, Reader.advance, Nat.zero_add, Cursor.advance, hnext]
    have hleft : r.left = k.left + 1 := Cursor.left_next? hnext
    have hle := Cursor.left_advance_le k n
    omega

end Passes

/-! ## between tokens -/

/-- Passing blanks leads on. -/
theorem leads_skipTrivia (r : Reader) (gap : Gap) : r.Leads (r.skipTrivia gap).2 := by
  fun_induction skipTrivia r gap with
  | case1 => exact .refl
  | case2 r gap c s hb _ _ ih => exact .head (.bump hb) ih
  | case3 r gap s hb _ _ ih => exact .head (.bump hb) ih
  | case4 r gap s t hb' _ hb _ _ _ ih => exact .head (.bump hb) (.head (.bump hb') ih)
  | case5 => exact .refl
  | case6 r gap c s hb _ _ _ _ hmark => exact .single (.data hmark)
  | case7 => exact .refl

theorem leads_of_skipTrivia {gap : Gap} (h : r.skipTrivia = (gap, s)) : r.Leads s := by
  have hleads := r.leads_skipTrivia {}
  rwa [h] at hleads

/-! ## block comments -/

/-- The rest of a line. -/
theorem leads_lineEnd (r : Reader) : r.Leads (r.advance (runLength (· != '\n') r.rest)) :=
  leads_advance (.runLength (by decide) _)

/-- The end of a block comment is led to. -/
theorem leads_blockCommentEnd? (h : r.blockCommentEnd? = some s) :
    (r.advance (runLength (· != '\n') r.rest)).Leads s := by
  fun_induction blockCommentEnd? r with
  | case1 => cases h
  | case2 r lineEnd c next hb =>
    obtain rfl := Option.some.inj h
    exact .head (.bump hb) next.leads_lineEnd
  | case3 r lineEnd c next hb _ _ _ ih => exact .head (.bump hb) (next.leads_lineEnd.trans (ih h))

/-- The last line is led to. -/
theorem leads_lastLineEnd (r : Reader) :
    (r.advance (runLength (· != '\n') r.rest)).Leads r.lastLineEnd := by
  fun_induction lastLineEnd r with
  | case1 => exact .refl
  | case2 r lineEnd c next hb _ _ ih => exact .head (.bump hb) (next.leads_lineEnd.trans ih)

end Reader

/-! ## what reading comes to -/

/-- What is read is as `P` says.  So is, as `R` says, the reader behind it, or where the attempt
is given up. -/
structure Reader.Yields {α : Type} (P : α → Prop) (R : Reader → Prop)
    (x : Except Failure (α × Reader)) : Prop where
  ok : ∀ {a s}, x = .ok (a, s) → P a ∧ R s
  error : ∀ {f}, x = .error f → R f.reader

namespace Reader.Yields

variable {α β : Type} {P : α → Prop} {Q : β → Prop} {R R' : Reader → Prop}

theorem of_ok {p : α × Reader} (hp : P p.1) (hr : R p.2) : Yields P R (.ok p) where
  ok h := by
    obtain rfl := Except.ok.inj h
    exact ⟨hp, hr⟩
  error h := by cases h

/-- A failure yields the reader at which it was given up. -/
theorem of_error {f : Failure} (hf : R f.reader) : Yields P R (.error f) where
  ok h := by cases h
  error h := by
    obtain rfl := Except.error.inj h
    exact hf

/-- A weaker description is yielded as well. -/
theorem imp {P' : α → Prop} {x : Except Failure (α × Reader)} (h : Yields P R x)
    (hp : ∀ {a}, P a → P' a) (hr : ∀ {s}, R s → R' s) : Yields P' R' x where
  ok hx := ⟨hp (h.ok hx).1, hr (h.ok hx).2⟩
  error hx := hr (h.error hx)

theorem mono {x : Except Failure (α × Reader)} (h : Yields P R x) (hr : ∀ {s}, R s → R' s) :
    Yields P R' x :=
  h.imp id hr

/-- What a first part yields is what a second one starts from. -/
theorem bind {x : Except Failure (α × Reader)} {f : α × Reader → Except Failure (β × Reader)}
    (h : Yields P R x) (hf : ∀ {a s}, P a → R s → Yields Q R (f (a, s))) :
    Yields Q R (x >>= f) := by
  cases x with
  | error failure => exact .of_error (h.error rfl)
  | ok p =>
    obtain ⟨hp, hr⟩ := h.ok rfl
    exact hf hp hr

end Reader.Yields

/-- What the segment reader reads is nested in fewer than `n` levels, and it leads on. -/
def SegmentYields (n : Nat) (segment : SegmentReader) : Prop :=
  ∀ q r, Reader.Yields (fun ts => ∀ t ∈ ts, t.depth < n) r.Leads (segment q r)

/-- A token with at most `n` levels below it, and a reader further on. -/
abbrev YieldsToken (n : Nat) (r : Reader) : Except Failure (Token × Reader) → Prop :=
  Reader.Yields (fun t => t.depth ≤ n) r.Passes

/-- What the token reader reads has at most `n` levels below it, and it leads on, strictly so. -/
def TokenYields (n : Nat) (token : Gap → Reader → Except Failure (Token × Reader)) : Prop :=
  ∀ gap r, r.rest ≠ [] → YieldsToken n r (token gap r)

/-! ## lexemes -/

namespace Reader

variable {r s : Reader} {n : Nat} {gap : Gap}

/-- A token with none below it. -/
theorem yields_plain {kind : Token.Kind} {k stop : Cursor} {value : Option String}
    (hs : r.Passes s) :
    YieldsToken n r (.ok (.between kind gap k stop value, s)) :=
  .of_ok (Token.depth_between_le (List.forall_mem_nil _)) hs

/-- Taking some characters of a line yields a token. -/
theorem yields_take (hne : r.rest ≠ []) {kind : Token.Kind} {m : Nat} (hm : 0 < m)
    (hline : Inline m r.rest) {value : Option String} :
    YieldsToken n r (.ok (r.take kind gap m value)) :=
  yields_plain (.advance hne hm hline)

/-- A stray character yields a token. -/
theorem yields_stray (hne : r.rest ≠ []) :
    YieldsToken n r (.ok (r.stray gap)) := by
  unfold stray
  split
  · next hnone =>
    unfold Reader.bump at hnone
    split at hnone
    · next hnext => exact absurd (Cursor.next?_eq_none_iff.1 hnext) hne
    · cases hnone
  · next c s hbump => exact yields_plain (.bump hbump)

/-- A mark yields a token. -/
theorem yields_punctuation (hne : r.rest ≠ []) :
    YieldsToken n r (.ok (r.punctuation gap)) := by
  unfold punctuation
  split
  · next word hfirst =>
    obtain ⟨hmem, hbegins⟩ := firstOf_eq_some hfirst
    obtain ⟨hpos, hline⟩ := At.punctuation_inline word hmem
    exact yields_take hne hpos (.of_begins hbegins hline)
  · exact yields_stray hne

/-- A comment yields a token. -/
theorem yields_comment {cs : List Char} (hrest : r.rest = '#' :: cs) :
    YieldsToken n r (.ok (r.comment gap)) := by
  refine yields_take (by simp [hrest]) ?_ (.runLength (by decide) _)
  rw [hrest]
  exact runLength_pos (by decide) cs

/-- A number yields a token. -/
theorem yields_numeral {c : Char} {cs : List Char} (hrest : r.rest = c :: cs)
    (hc : c.isDigit = true) : YieldsToken n r (.ok (r.numeral gap)) := by
  refine yields_take (by simp [hrest]) ?_ (.numeralLength _)
  rw [hrest]
  exact numeralLength_pos hc cs

/-- A name behind a sigil yields a token. -/
theorem yields_sigilName {c : Char} {cs : List Char} (hrest : r.rest = c :: cs)
    (hc : c = '@' ∨ c = '$') :
    YieldsToken n r (.ok (r.sigilName gap)) := by
  have hne : r.rest ≠ [] := by simp [hrest]
  have hfeed : c ≠ '\n' := by
    rintro rfl
    revert hc
    decide
  have hsigil : r.Passes (if r.cursor.startsWith "@@" then r.advance 2 else r.advance 1) := by
    split
    · next hstarts =>
      exact .advance hne (by decide)
        (.of_begins (List.isPrefixOf_iff_prefix.1 hstarts) (by decide))
    · exact .advance hne (by decide) (hrest ▸ .succ_cons hfeed (.zero _))
  unfold sigilName
  simp only
  generalize (if r.cursor.startsWith "@@" then r.advance 2 else r.advance 1) = name at hsigil ⊢
  split
  · split
    · exact yields_plain hsigil
    · next hbump => exact yields_plain (hsigil.onto (.single (.bump hbump)))
  · exact yields_plain (hsigil.onto (leads_advance (.runLength (by decide) _)))

/-- A word yields a token. -/
theorem yields_word {c : Char} {cs : List Char} (hrest : r.rest = c :: cs)
    (hc : isNameStart c = true) :
    YieldsToken n r (.ok (r.word gap)) := by
  have hne : r.rest ≠ [] := by simp [hrest]
  have hpos : 0 < wordLength r.rest := by
    rw [hrest]
    exact wordLength_pos hc cs
  unfold word
  simp only
  split
  · next hlabel =>
    simp only [Bool.and_eq_true] at hlabel
    have hline : Inline 1 (r.rest.drop (wordLength r.rest)) := .of_labelColon hlabel.1
    exact yields_take hne (Nat.succ_pos _) (.add (.wordLength _) hline)
  · have hword : r.Passes (r.advance (wordLength r.rest)) := .advance hne hpos (.wordLength _)
    exact yields_plain (hword.onto (leads_stay rfl rfl))

/-- A block comment yields a token or a failure. -/
theorem yields_blockComment {cs : List Char} (hrest : r.rest = '=' :: cs) :
    YieldsToken n r (r.blockComment gap) := by
  have hline : r.Passes (r.advance (runLength (· != '\n') r.rest)) := by
    refine .advance (by simp [hrest]) ?_ (.runLength (by decide) _)
    rw [hrest]
    exact runLength_pos (by decide) cs
  unfold blockComment
  split
  · exact .of_error (hline.onto (r.leads_lastLineEnd.trans (leads_failure _ _)))
  · next hend => exact yields_plain (hline.onto (leads_blockCommentEnd? hend))

/-- A heredoc yields a token or a failure. -/
theorem yields_heredoc {m : Marker} (hm : Marker.ofChars? r.rest = some m) :
    YieldsToken n r (r.heredoc gap m) := by
  obtain ⟨-, hpos, hline, -⟩ := Marker.ofChars?_eq_some hm
  have hne : r.rest ≠ [] := by
    intro hnil
    rw [hnil] at hm
    cases hm
  have hmarker : r.Passes (r.advance m.length) := .advance hne hpos hline
  have hgiven : ∀ fault, r.Passes ((r.advance m.length).failure fault).reader := fun fault =>
    hmarker.onto (leads_failure _ fault)
  cases hread : r.heredoc gap m with
  | error f =>
    refine .of_error ?_
    unfold heredoc at hread
    simp only at hread
    split at hread
    · obtain rfl := Except.error.inj hread
      exact hgiven _
    · split at hread
      · obtain rfl := Except.error.inj hread
        exact hgiven _
      · cases hread
  | ok p =>
    obtain ⟨t, s⟩ := p
    refine .of_ok ?_ ⟨.single (.heredoc hm hread), ?_⟩
    · unfold heredoc at hread
      simp only at hread
      split at hread
      · cases hread
      · split at hread
        · cases hread
        · obtain ⟨rfl, -⟩ := Prod.mk.inj (Except.ok.inj hread)
          exact Token.depth_between_le (List.forall_mem_nil _)
    · rw [left, cursor_heredoc hread]
      exact hmarker.left_lt

end Reader

/-! ## literals -/

namespace SegmentYields

variable {n : Nat} {segment : SegmentReader} {r : Reader} {gap : Gap}

theorem mono (hsegment : SegmentYields n segment) {m : Nat} (hle : n ≤ m) :
    SegmentYields m segment :=
  fun q r => (hsegment q r).imp (fun hts t ht => Nat.lt_of_lt_of_le (hts t ht) hle) id

/-- The levels below a body stay as they are, whatever is added to its text. -/
theorem pushEscaped_nested (q : Quoting) (body : Quoted) (c : Char) :
    (Quoted.pushEscaped q body c).nested = body.nested := by
  unfold Quoted.pushEscaped
  split
  · rfl
  · split <;> rfl

/-- The body of a quotation yields nested tokens of the depth of its segments. -/
theorem body (hsegment : SegmentYields n segment) {q : Quoting} {depth : Nat} {body : Quoted}
    (hbody : ∀ t ∈ body.nested, t.depth < n) :
    Reader.Yields (fun b : Quoted => ∀ t ∈ b.nested, t.depth < n) r.Leads
      (q.body segment depth body r) := by
  have hbrace : ∀ {s : Reader}, s.rest.head? = some '{' → Inline 1 s.rest := by
    intro s hhead
    obtain ⟨more, hmore⟩ := List.head?_eq_some_iff.1 hhead
    exact hmore ▸ .succ_cons (by decide) (.zero _)
  have hsigil : ∀ {p : Bool} {body : Quoted}, (∀ t ∈ body.nested, t.depth < n) →
      ∀ t ∈ (if p then { body with dynamic := true } else body).nested, t.depth < n := by
    intro p body hbody
    cases p <;> exact hbody
  fun_induction Quoting.body q segment depth body r with
  | case1 depth body r hnone => exact .of_error (r.leads_failure _)
  | case2 depth body r s hnone hbump =>
    exact .of_error (.head (.bump hbump) (s.leads_failure _))
  | case3 depth body r s e t hbump' _ hbump _ ih =>
    refine (ih ?_).mono fun ht => .head (.bump hbump) (.head (.bump hbump') ht)
    rw [pushEscaped_nested]
    exact hbody
  | case4 depth body r c s hbump _ _ hopens failure hread =>
    simp only [Bool.and_eq_true, beq_iff_eq] at hopens
    have hs : s.Leads (s.advance 1) := Reader.leads_advance (hbrace hopens.2)
    exact .of_error (.head (.bump hbump) (hs.trans ((hsegment q _).error hread)))
  | case5 depth body r c s hbump _ _ hopens tokens t hread _ ih =>
    simp only [Bool.and_eq_true, beq_iff_eq] at hopens
    have hs : s.Leads (s.advance 1) := Reader.leads_advance (hbrace hopens.2)
    obtain ⟨htokens, ht⟩ := (hsegment q _).ok hread
    refine (ih ?_).mono fun hu => .head (.bump hbump) (hs.trans (ht.trans hu))
    exact List.forall_mem_append.2 ⟨hbody, htokens⟩
  | case6 depth body r c s hbump _ _ hopens tokens t hread =>
    simp only [Bool.and_eq_true, beq_iff_eq] at hopens
    have hs : s.Leads (s.advance 1) := Reader.leads_advance (hbrace hopens.2)
    obtain ⟨-, ht⟩ := (hsegment q _).ok hread
    exact .of_error (.head (.bump hbump) (hs.trans (ht.trans (t.leads_failure _))))
  | case7 depth body r c s hbump =>
    rename_i ih
    exact (ih (hsigil hbody)).mono fun hs => .head (.bump hbump) hs
  | case8 body r s _ hbump =>
    exact .of_ok (hsigil hbody) (.single (.bump hbump))
  | case9 body r s _ depth hbump =>
    rename_i ih
    exact (ih (hsigil hbody)).mono fun hs => .head (.bump hbump) hs
  | case10 depth body r c s hbump =>
    rename_i ih
    exact (ih (hsigil hbody)).mono fun hs => .head (.bump hbump) hs

/-- The body behind the head of a literal. -/
theorem behind (hsegment : SegmentYields n segment) (hne : r.rest ≠ []) {m : Nat} (hm : 0 < m)
    (hline : Inline m r.rest) {q : Quoting} :
    Reader.Yields (fun b : Quoted => ∀ t ∈ b.nested, t.depth < n) r.Passes
      (q.body segment 0 {} (r.advance m)) :=
  (hsegment.body (List.forall_mem_nil _)).mono fun hs =>
    (Reader.Passes.advance hne hm hline).onto hs

/-- A quotation yields a token or a failure. -/
theorem quotation (hsegment : SegmentYields n segment) {quote : Char} {cs : List Char}
    (hrest : r.rest = quote :: cs) (hquote : quote ≠ '\n') :
    YieldsToken n r (r.quotation segment gap quote) := by
  have hline : Inline 1 r.rest := hrest ▸ .succ_cons hquote (.zero _)
  refine (hsegment.behind (by simp [hrest]) Nat.one_pos hline).bind fun {body s} hbody hs => ?_
  simp only
  split
  · next hlabel =>
    simp only [Bool.and_eq_true] at hlabel
    exact Reader.yields_plain (hs.onto (Reader.leads_advance (.of_labelColon hlabel.2)))
  · exact .of_ok (Token.depth_between_le hbody) hs

/-- A symbol in quotes yields a token or a failure. -/
theorem quotedSymbol (hsegment : SegmentYields n segment) {quote : Char} {cs : List Char}
    (hrest : r.rest = ':' :: quote :: cs) (hquote : quote ≠ '\n') :
    YieldsToken n r (r.quotedSymbol segment gap quote) := by
  have hline : Inline 2 r.rest :=
    hrest ▸ .succ_cons (by decide) (.succ_cons hquote (.zero _))
  refine (hsegment.behind (by simp [hrest]) Nat.two_pos hline).bind fun {body s} hbody hs => ?_
  exact .of_ok (Token.depth_between_le hbody) hs

/-- What a colon begins yields a token or a failure. -/
theorem colon (hsegment : SegmentYields n segment) {cs : List Char} (hrest : r.rest = ':' :: cs) :
    YieldsToken n r (r.colon segment gap) := by
  have hne : r.rest ≠ [] := by simp [hrest]
  unfold Reader.colon
  rw [hrest, List.tail_cons]
  split
  · exact Reader.yields_punctuation hne
  · next c cs =>
    split
    · next hquote =>
      refine hsegment.quotedSymbol hrest ?_
      rintro rfl
      revert hquote
      decide
    · split
      · have hline : Inline (wordLength (c :: cs) + 1) r.rest :=
          hrest ▸ .succ_cons (by decide) (.wordLength _)
        exact Reader.yields_take hne (Nat.succ_pos _) hline
      · split
        · split
          · next op hop =>
            obtain ⟨hmem, hbegins⟩ := firstOf_eq_some hop
            have hop' := Reader.At.operatorSymbols_inline op hmem
            have hline : Inline (op.length + 1) r.rest :=
              hrest ▸ .succ_cons (by decide) (.of_begins hbegins hop')
            exact Reader.yields_take hne (Nat.succ_pos _) hline
          · exact Reader.yields_punctuation hne
        · exact Reader.yields_punctuation hne

/-- A regex yields a token or a failure. -/
theorem regex (hsegment : SegmentYields n segment) {cs : List Char} (hrest : r.rest = '/' :: cs) :
    YieldsToken n r (r.regex segment gap) := by
  have hline : Inline 1 r.rest := hrest ▸ .succ_cons (by decide) (.zero _)
  refine (hsegment.behind (by simp [hrest]) Nat.one_pos hline).bind fun {body s} hbody hs => ?_
  have hflags : s.Leads (s.advance (runLength Char.isLower s.rest)) :=
    Reader.leads_advance (.runLength (by decide) _)
  exact .of_ok (Token.depth_between_le hbody) (hs.onto hflags)

/-- An attempt at a regex that is undone leaves the reader where it was. -/
theorem regexOrSlash (hsegment : SegmentYields n segment) {cs : List Char}
    (hrest : r.rest = '/' :: cs) :
    YieldsToken n r (.ok (r.regexOrSlash segment gap)) := by
  have hslash : ∀ ended : Bool,
      YieldsToken n r (.ok ({ r with ended }.punctuation gap)) := by
    intro ended
    have hne : ({ r with ended } : Reader).rest ≠ [] := by
      change r.rest ≠ []
      simp [hrest]
    exact (Reader.yields_punctuation hne).mono (.into (Reader.leads_stay rfl rfl))
  unfold Reader.regexOrSlash
  split
  · next token s hread =>
    split
    · exact hslash _
    · obtain ⟨htoken, hs⟩ := (hsegment.regex hrest).ok hread
      exact .of_ok htoken hs
  · exact hslash _

/-- A literal behind a percent sign yields a token or a failure. -/
theorem percent (hsegment : SegmentYields n segment) {head : PercentHead} (hne : r.rest ≠ [])
    (hhead : PercentHead.ofChars? r.rest = some head) :
    YieldsToken n r (r.percent segment gap head) := by
  obtain ⟨hpos, hline⟩ := PercentHead.ofChars?_eq_some hhead
  refine (hsegment.behind hne hpos hline).bind fun {body s} hbody hs => ?_
  refine .of_ok (Token.depth_between_le hbody) (hs.onto ?_)
  simp only
  split
  · exact Reader.leads_advance (.runLength (by decide) _)
  · exact .refl

/-- Whatever token is read. -/
theorem tokenWith (hsegment : SegmentYields n segment) :
    TokenYields n (Reader.tokenWith segment) := by
  intro gap r hne
  have hpunctuation : YieldsToken n r (.ok (r.punctuation gap)) := Reader.yields_punctuation hne
  unfold Reader.tokenWith
  split
  · next hnil => exact absurd hnil hne
  · next c cs hrest =>
    by_cases hcomment : c = '#'
    · rw [if_pos hcomment]
      exact Reader.yields_comment (hcomment ▸ hrest)
    rw [if_neg hcomment]
    by_cases hblock : c = '=' ∧ Reader.opensBlockComment r.cursor
    · rw [if_pos hblock]
      exact Reader.yields_blockComment (hblock.1 ▸ hrest)
    rw [if_neg hblock]
    by_cases hquote : c = '\'' ∨ c = '"' ∨ c = '\x60'
    · rw [if_pos hquote]
      refine hsegment.quotation hrest ?_
      rintro rfl
      revert hquote
      decide
    rw [if_neg hquote]
    by_cases hopen : c = '{'
    · rw [if_pos hopen]
      exact Reader.yields_take hne Nat.one_pos (hrest ▸ hopen ▸ .succ_cons (by decide) (.zero _))
    rw [if_neg hopen]
    by_cases hclose : c = '}'
    · rw [if_pos hclose]
      exact Reader.yields_take hne Nat.one_pos (hrest ▸ hclose ▸ .succ_cons (by decide) (.zero _))
    rw [if_neg hclose]
    by_cases hcolon : c = ':'
    · rw [if_pos hcolon]
      exact hsegment.colon (hcolon ▸ hrest)
    rw [if_neg hcolon]
    by_cases hslash : c = '/'
    · rw [if_pos hslash]
      split
      · exact hsegment.regex (hslash ▸ hrest)
      · split
        · exact hsegment.regexOrSlash (hslash ▸ hrest)
        · exact hpunctuation
    rw [if_neg hslash]
    by_cases hpercent : c = '%'
    · rw [if_pos hpercent]
      split
      · next hhead =>
        split
        · exact hsegment.percent hne hhead
        · exact hpunctuation
      · exact hpunctuation
    rw [if_neg hpercent]
    by_cases hmark : c = '<'
    · rw [if_pos hmark]
      split
      · next hmarker =>
        split
        · exact Reader.yields_heredoc hmarker
        · exact hpunctuation
      · exact hpunctuation
    rw [if_neg hmark]
    by_cases hsigil : c = '@' ∨ c = '$'
    · rw [if_pos hsigil]
      exact Reader.yields_sigilName hrest hsigil
    rw [if_neg hsigil]
    by_cases hdigit : c.isDigit = true
    · rw [if_pos hdigit]
      exact Reader.yields_numeral hrest hdigit
    rw [if_neg hdigit]
    by_cases hname : isNameStart c = true
    · rw [if_pos hname]
      exact Reader.yields_word hrest hname
    rw [if_neg hname]
    exact hpunctuation

end SegmentYields

/-! ## segments -/

namespace TokenYields

variable {n : Nat} {token : Gap → Reader → Except Failure (Token × Reader)} {r : Reader}

/-- The tokens of a segment are one less deep than the segment. -/
theorem segmentTokens (htoken : TokenYields n token) {q : Quoting} {braces : Nat}
    {tokens : List Token} (htokens : ∀ t ∈ tokens, t.depth < n + 1) :
    Reader.Yields (fun ts => ∀ t ∈ ts, t.depth < n + 1) r.Leads
      (q.segmentTokens token braces tokens r) := by
  fun_induction Quoting.segmentTokens q token braces tokens r with
  | case1 braces tokens r gap s hskip hrest =>
    simp only [hskip, hrest]
    exact .of_error ((Reader.leads_of_skipTrivia hskip).trans (s.leads_failure _))
  | case2 braces tokens r gap s hskip c tail hrest hclose =>
    simp only [hskip, hrest, if_pos hclose]
    have hline : Inline 1 s.rest := by
      rw [hrest, hclose.1]
      exact .succ_cons (by decide) (.zero _)
    refine .of_ok (fun t ht => htokens t (List.mem_reverse.1 ht)) ?_
    exact (Reader.leads_of_skipTrivia hskip).trans (Reader.leads_advance hline)
  | case3 braces tokens r gap s hskip c tail hrest hclose failure hread =>
    simp only [hskip, hrest, if_neg hclose, hread]
    have herror := (htoken gap s (by simp [hrest])).error hread
    exact .of_error ((Reader.leads_of_skipTrivia hskip).trans herror.leads)
  | case4 braces tokens r gap s hskip c tail hrest hclose t u hread =>
    rename_i hleft _ ih
    simp only [hskip, hrest, if_neg hclose, hread, if_pos hleft]
    obtain ⟨ht, hu⟩ := (htoken gap s (by simp [hrest])).ok hread
    have hnote : r.Leads (u.note t) :=
      ((Reader.leads_of_skipTrivia hskip).trans hu.leads).trans (u.leads_note t)
    refine (ih ?_).mono fun hv => hnote.trans hv
    exact List.forall_mem_cons.2 ⟨Nat.lt_succ_of_le ht, htokens⟩
  | case5 braces tokens r gap s hskip c tail hrest hclose t u hread hleft =>
    simp only [hskip, hrest, if_neg hclose, hread, if_neg hleft]
    obtain ⟨-, hu⟩ := (htoken gap s (by simp [hrest])).ok hread
    exact .of_error (((Reader.leads_of_skipTrivia hskip).trans hu.leads).trans (u.leads_failure _))

/-- A segment is one deeper than its tokens. -/
theorem segmentWith (htoken : TokenYields n token) : SegmentYields (n + 1) (segmentWith token) := by
  intro q r
  let inner : Reader := { r with previous := none, afterQuestion := false, loopLine := none }
  have hr : r.Leads inner := Reader.leads_stay rfl rfl
  have hinner : Reader.Yields (fun ts => ∀ t ∈ ts, t.depth < n + 1) inner.Leads
      (q.segmentTokens token 0 [] inner) := htoken.segmentTokens (List.forall_mem_nil _)
  unfold ConnectorAudit.segmentWith
  simp only
  split
  · next failure hread => exact .of_error (hr.trans (hinner.error hread))
  · next tokens s hread =>
    obtain ⟨htokens, hs⟩ := hinner.ok hread
    exact .of_ok htokens ((hr.trans hs).trans (Reader.leads_stay rfl rfl))

end TokenYields

theorem segmentYields_noSegment : SegmentYields 0 noSegment :=
  fun _ r => .of_error (r.leads_failure _)

/-- A segment reader reads the code of one level with the token reader of the level below. -/
theorem tokenYields_tokenAt (levels : Nat) : TokenYields levels (Reader.tokenAt levels) := by
  induction levels with
  | zero => exact segmentYields_noSegment.tokenWith
  | succ levels ih => exact ih.segmentWith.tokenWith

end ConnectorAudit
