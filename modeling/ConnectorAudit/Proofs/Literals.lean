import ConnectorAudit.Proofs.Lexemes
import ConnectorAudit.Proofs.Results
import ConnectorAudit.Token.Scan

/-!
# Reading a literal

Literals may span lines and hold code, whose tokens are read like all others, by
the reader of the level below.  What is asked of a reader of tokens is
`TokenReads`, and of a reader of segments `SegmentReads`; each kind of literal
keeps to the first if its segments keep to the second.

* `Reader.At.heredoc`: a marker, and the jump over the body it announces;
* `SegmentReads.body`: the body of a literal through its closing delimiter;
* `TokenReads.segmentWith`, `SegmentReads.tokenWith`: a level and the one below it;
* `tokenReads_tokenAt`: hence all levels.
-/

namespace ConnectorAudit

/-- Each token that is read reaches from the reader to the one behind it. -/
def TokenReads (source : String) (token : Gap → Reader → Except Failure (Token × Reader)) : Prop :=
  ∀ h i gap r t s, r.At source h i → token gap r = .ok (t, s) → Reads source h i t s

/-- The tokens of each segment that is read are laid between the reader and the one behind the
segment. -/
def SegmentReads (source : String) (segment : SegmentReader) : Prop :=
  ∀ h i q r ts s, r.At source h i → segment q r = .ok (ts, s) →
    ∃ j, i < j ∧ s.At source (h.addAll source ts) j ∧
      Laid source (byteAt source.toList i) (byteAt source.toList j) ts

/-! ## heredocs -/

/-- The body of a heredoc begins behind the first line feed. -/
theorem Cursor.lineBehind_place {cs : List Char} {i : Nat} {k : Cursor}
    (h : (((place cs i).skipWhile (· != '\n')).next?).map Prod.snd = some k) :
    ∃ line, k = place cs line ∧ i < line ∧ line ≤ cs.length ∧ cs[line - 1]? = some '\n' ∧
      ∀ x, i ≤ x → x + 1 < line → cs[x]? ≠ some '\n' := by
  obtain ⟨⟨c, k'⟩, hnext, rfl⟩ := Option.map_eq_some_iff.1 h
  rw [skipWhile, advance_place, rest_place] at hnext
  obtain ⟨hc, rfl⟩ := next?_place_eq_some hnext
  have hlt := (List.getElem?_eq_some_iff.1 hc).1
  have hsplit : (cs.drop i).takeWhile (· != '\n') ++ (cs.drop i).dropWhile (· != '\n') =
      cs.drop i := List.takeWhile_append_dropWhile
  have hfeed : c = '\n' := by
    have hhead : ((cs.drop i).dropWhile (· != '\n')).head? = some c := by
      rw [← hc, ← List.getElem?_drop, List.head?_eq_getElem?]
      nth_rewrite 2 [← hsplit]
      rw [List.getElem?_append_right (Nat.le_refl _), Nat.sub_self]
    have hnot := List.head?_dropWhile_not (· != '\n') (cs.drop i)
    rw [hhead] at hnot
    simpa using hnot
  refine ⟨_, rfl, by omega, hlt, ?_, ?_⟩
  · rw [Nat.add_sub_cancel, hc, hfeed]
  · intro x hx hxl hnl
    have hget : ((cs.drop i).takeWhile (· != '\n') ++ (cs.drop i).dropWhile (· != '\n'))[x - i]? =
        some '\n' := by
      rw [hsplit, List.getElem?_drop, Nat.add_sub_cancel' hx, hnl]
    rw [List.getElem?_append_left (by omega)] at hget
    have hall := List.all_eq_true.1 List.all_takeWhile _ (List.mem_of_getElem? hget)
    simp at hall

namespace Reader.At

variable {source : String} {h : Heredocs} {i j : Nat} {r s : Reader}

/-- A body begins where the heredocs so far let it. -/
theorem bodyStart?_eq (hr : r.At source h i) :
    r.bodyStart? = h.start? (.place source.toList i) := by
  unfold bodyStart? Heredocs.start?
  rw [hr.jump_eq, hr.cursor_eq]
  rfl

/-- The body of a heredoc announced here begins at `k`, behind those announced before it on the
same line; they all begin at `line`. -/
theorem bodyStart? (hr : r.At source h i) {start : Cursor} (hstart : r.bodyStart? = some start) :
    ∃ line k, start = .place source.toList k ∧
      (match r.jump with
        | some jump => jump.bodyStart
        | none => start.offset) = byteAt source.toList line ∧
      i < line ∧ line ≤ k ∧ k ≤ source.toList.length ∧ source.toList[line - 1]? = some '\n' ∧
      (∀ x, i ≤ x → x + 1 < line → source.toList[x]? ≠ some '\n') ∧
      (∀ b ∈ h.bodies, b.2 ≤ byteAt source.toList i ∨
        byteAt source.toList line ≤ b.1 ∧ b.2 ≤ byteAt source.toList k) ∧
      ∀ byte, byteAt source.toList line ≤ byte → byte < byteAt source.toList k →
        h.Holds byte := by
  unfold Reader.bodyStart? at hstart
  cases hjump : r.jump with
  | none =>
    rw [hjump] at hstart
    simp only [hr.cursor_eq] at hstart
    obtain ⟨line, rfl, hi, hlen, hfeed, hno⟩ := Cursor.lineBehind_place hstart
    refine ⟨line, line, rfl, rfl, hi, Nat.le_refl _, hlen, hfeed, hno, ?_, fun _ _ _ => by omega⟩
    intro b hb
    cases hr.passed b hb with
    | inl hbehind => exact .inl hbehind
    | inr hsome =>
      obtain ⟨jump, hsome, -⟩ := hsome
      rw [hjump] at hsome
      cases hsome
  | some jump =>
    rw [hjump] at hstart
    simp only [Option.some.injEq] at hstart
    obtain ⟨line, k, hline, hresume, hi, hlk, hlen, hfeed, hno⟩ := hr.awaits jump hjump
    have hfilled := hr.filled jump hjump
    rw [hline, hresume] at hfilled
    refine ⟨line, k, hstart ▸ hresume, hline, hi, hlk, hlen, hfeed, hno, ?_, hfilled⟩
    intro b hb
    cases hr.passed b hb with
    | inl hbehind => exact .inl hbehind
    | inr hsome =>
      obtain ⟨jump', hsome, hfirst, hlast⟩ := hsome
      obtain rfl : jump = jump' := Option.some.inj (hjump.symm.trans hsome)
      rw [hline] at hfirst
      rw [hresume] at hlast
      exact .inr ⟨hfirst, hlast⟩

/-- The place behind the closing line of a heredoc is where it is counted to be from here. -/
theorem locate_resume (hr : r.At source h i) {m : Marker} (hm : m.terminator ≠ [])
    {start stop resume : Cursor} (hstart : r.bodyStart? = some start)
    (hend : m.bodyEnd? start = some (stop, resume)) : r.cursor.locate resume = resume := by
  obtain ⟨line, k, rfl, -, -, -, hk, -⟩ := hr.bodyStart? hstart
  obtain ⟨a, b, -, rfl, -⟩ := Marker.bodyEnd?_place hm hk hend
  rw [hr.cursor_eq, Cursor.locate_place]

/-- A heredoc that is announced is jumped over with those announced before it. -/
theorem announce (hr : r.At source h i) {m : Marker} (hm : m.terminator ≠ [])
    {start stop resume : Cursor} (hstart : r.bodyStart? = some start)
    (hend : m.bodyEnd? start = some (stop, resume)) :
    { r with jump := some {
        bodyStart :=
          match r.jump with
          | some jump => jump.bodyStart
          | none => start.offset
        resume } }.At source (h.announce m (.place source.toList i)) i := by
  have hannounce : h.announce m (.place source.toList i) =
      { bodies := h.bodies ++ [(start.offset, resume.offset)]
        pending := some {
          bodyStart :=
            match r.jump with
            | some jump => jump.bodyStart
            | none => start.offset
          resume } } := by
    unfold Heredocs.announce
    rw [hr.bodyStart?_eq] at hstart
    rw [hstart]
    simp only [hend, hr.jump_eq]
    rfl
  obtain ⟨line, k, rfl, hline, hi, hlk, hk, hfeed, hno, hpassed, hfilled⟩ := hr.bodyStart? hstart
  obtain ⟨a, b, -, rfl, hka, hab, hb⟩ := Marker.bodyEnd?_place hm hk hend
  have hlt : byteAt source.toList i < byteAt source.toList line := byteAt_lt hi (by omega)
  have hkb : byteAt source.toList k ≤ byteAt source.toList b := byteAt_le (by omega)
  have hlk' : byteAt source.toList line ≤ byteAt source.toList k := byteAt_le hlk
  rw [hannounce, hline]
  refine ⟨hr.cursor_eq, hr.le_length, ?_, ?_, ?_, ?_⟩
  · exact (Heredocs.waiting_eq_some_iff.2 ⟨rfl, hlt⟩).symm
  · intro jump hjump
    obtain rfl := Option.some.inj hjump
    exact ⟨line, b, rfl, rfl, hi, by omega, hb, hfeed, hno⟩
  · intro body hbody
    cases List.mem_append.1 hbody with
    | inl hbody =>
      cases hpassed body hbody with
      | inl hbehind => exact .inl hbehind
      | inr hahead => exact .inr ⟨_, rfl, hahead.1, Nat.le_trans hahead.2 hkb⟩
    | inr hbody =>
      obtain rfl := List.mem_singleton.1 hbody
      exact .inr ⟨_, rfl, hlk', Nat.le_refl _⟩
  · intro jump hjump byte hfirst hlast
    obtain rfl := Option.some.inj hjump
    by_cases hbyte : byte < byteAt source.toList k
    · obtain ⟨body, hbody, hin⟩ := hfilled byte hfirst hbyte
      exact ⟨body, List.mem_append_left _ hbody, hin⟩
    · exact ⟨_, List.mem_append_right _ (List.mem_singleton_self _), Nat.le_of_not_lt hbyte, hlast⟩

/-- A marker becomes a token, and announces its body. -/
theorem heredoc (hr : r.At source h i) {m : Marker} (hm : Marker.ofChars? r.rest = some m)
    {gap : Gap} {t : Token} (hok : r.heredoc gap m = .ok (t, s)) : Reads source h i t s := by
  obtain ⟨hterm, hpos, hline, hself⟩ := Marker.ofChars?_eq_some hm
  have hne : r.rest ≠ [] := by
    intro hnil
    rw [hnil] at hm
    cases hm
  have hlt := hr.lt_length hne
  have hu := hr.advance hline
  generalize hj : min (i + m.length) source.toList.length = j at hu
  have hij : i < j := by omega
  unfold Reader.heredoc at hok
  simp only at hok
  split at hok
  · cases hok
  · next start hstart =>
    split at hok
    · cases hok
    · next stop resume hend =>
      rw [hu.locate_resume hterm hstart hend] at hok
      obtain ⟨rfl, rfl⟩ := Prod.mk.inj (Except.ok.inj hok)
      have htext : (source.toList.drop i).take (j - i) = r.rest.take m.length := by
        rw [hr.rest_eq, List.take_eq_take_iff, List.length_drop]
        omega
      have hlt' : byteAt source.toList i < byteAt source.toList j := byteAt_lt hij hu.le_length
      have hle := Nat.le_of_lt hij
      rw [hr.cursor_eq, hu.cursor_eq]
      refine ⟨Token.placed_between hij hu.le_length .nil hlt', rfl, j, hij,
        Token.stop_between hle, ?_⟩
      rw [h.addAll_marker (m := m) ?_ rfl (Token.stop_between hle ▸ Cursor.at?_place hu.le_length)]
      · exact (hu.announce hterm hstart hend).congr hu.cursor_eq.symm rfl
      · refine (if_pos rfl).trans ?_
        rw [Token.text_between hle, htext, String.toList_ofList, hself]

end Reader.At

/-! ## bodies and segments -/

section Body

variable {source : String} {segment : SegmentReader} {h : Heredocs} {lo : Nat}

/-- What is read of a body: the tokens below it are laid up to the reader, which has them all
behind it. -/
structure BodyAt (source : String) (h : Heredocs) (lo i : Nat) (body : Quoted) (r : Reader) :
    Prop where
  at_ : r.At source (h.addAll source body.nested) i
  le : lo ≤ byteAt source.toList i
  laid : Laid source lo (byteAt source.toList i) body.nested
  /-- A body that does not depend on code holds none. -/
  fixed : body.dynamic = false → body.nested = []

namespace BodyAt

variable {i : Nat} {body : Quoted} {r : Reader}

/-- Nothing is read yet. -/
theorem start (hr : r.At source h i) (hle : lo ≤ byteAt source.toList i) :
    BodyAt source h lo i {} r :=
  ⟨hr, hle, .nil, fun _ => rfl⟩

/-- Only the tokens below a body matter, and whether it depends on code. -/
theorem congr (hb : BodyAt source h lo i body r) {body' : Quoted}
    (hnested : body'.nested = body.nested)
    (hdynamic : body'.dynamic = false → body.dynamic = false) :
    BodyAt source h lo i body' r where
  at_ := hnested ▸ hb.at_
  le := hb.le
  laid := hnested ▸ hb.laid
  fixed hd := hnested ▸ hb.fixed (hdynamic hd)

/-- A character that is escaped leaves a body in place. -/
theorem pushEscaped (hb : BodyAt source h lo i body r) (q : Quoting) (c : Char) :
    BodyAt source h lo i (Quoted.pushEscaped q body c) r := by
  refine hb.congr ?_ ?_ <;> unfold Quoted.pushEscaped
  · split
    · rfl
    · split <;> rfl
  · split
    · exact id
    · split <;> exact id

/-- A character is read. -/
theorem bump (hb : BodyAt source h lo i body r) {c : Char} {s : Reader}
    (hbump : r.bump = some (c, s)) : ∃ j, i < j ∧ BodyAt source h lo j body s := by
  obtain ⟨-, -, j, hij, hs, -⟩ := hb.at_.bump hbump
  have hle : byteAt source.toList i ≤ byteAt source.toList j := byteAt_le (Nat.le_of_lt hij)
  exact ⟨j, hij, hs, Nat.le_trans hb.le hle, hb.laid.mono (Nat.le_refl _) hle, hb.fixed⟩

/-- A segment is read. -/
theorem interpolate (hb : BodyAt source h lo i body r) (hsegment : SegmentReads source segment)
    {q : Quoting} {tokens : List Token} {s : Reader} (hrest : r.rest.head? = some '{')
    (hok : segment q (r.advance 1) = .ok (tokens, s)) :
    ∃ j, i < j ∧
      BodyAt source h lo j { body with nested := body.nested ++ tokens, dynamic := true } s := by
  obtain ⟨more, hmore⟩ := List.head?_eq_some_iff.1 hrest
  have hline : Inline 1 r.rest := hmore ▸ .succ_cons (by decide) (.zero _)
  obtain ⟨k, hik, hbrace⟩ := hb.at_.advance_le hline
  obtain ⟨j, hkj, hs, hlaid⟩ := hsegment _ _ _ _ _ _ hbrace hok
  have hle : byteAt source.toList i ≤ byteAt source.toList k := byteAt_le hik
  have hle' : byteAt source.toList k ≤ byteAt source.toList j := byteAt_le (Nat.le_of_lt hkj)
  have hlo := hb.le
  refine ⟨j, by omega, ?_, by omega, ?_, fun hd => by cases hd⟩
  · rw [Heredocs.addAll_append]
    exact hs
  · exact (hb.laid.mono (Nat.le_refl _) hle).append hlaid (by omega) hle'

/-- A sigil behind `#` makes the body depend on code. -/
theorem sigil (hb : BodyAt source h lo i body r) (p : Bool) :
    BodyAt source h lo i (if _ : p then { body with dynamic := true } else body) r := by
  split
  · exact hb.congr rfl fun hd => by cases hd
  · exact hb

/-- A character that is taken leaves a body in place. -/
theorem push (hb : BodyAt source h lo i body r) (c : Char) :
    BodyAt source h lo i (body.push c) r :=
  hb.congr rfl id

end BodyAt

/-- The tokens below a literal end before its closing delimiter. -/
theorem SegmentReads.body (hsegment : SegmentReads source segment) {q : Quoting} {depth i : Nat}
    {body result : Quoted} {r s : Reader} (hb : BodyAt source h lo i body r)
    (hok : q.body segment depth body r = .ok (result, s)) :
    ∃ k j, i ≤ k ∧ k < j ∧ s.At source (h.addAll source result.nested) j ∧
      Laid source lo (byteAt source.toList k) result.nested ∧
      (result.dynamic = false → result.nested = []) := by
  fun_induction Quoting.body q segment depth body r generalizing i with
  | case1 => cases hok
  | case2 => cases hok
  | case3 depth body r s' e t hbump' _ hbump _ ih =>
    obtain ⟨j, hij, hs⟩ := hb.bump hbump
    obtain ⟨j', hjj, ht⟩ := hs.bump hbump'
    obtain ⟨k, l, hk, hrest⟩ := ih (ht.pushEscaped q e) hok
    exact ⟨k, l, by omega, hrest⟩
  | case4 => cases hok
  | case5 depth body r c s' hbump _ _ hsegment' tokens t hread _ ih =>
    simp only [Bool.and_eq_true, beq_iff_eq] at hsegment'
    obtain ⟨j, hij, hs⟩ := hb.bump hbump
    obtain ⟨j', hjj, ht⟩ := hs.interpolate hsegment hsegment'.2 hread
    obtain ⟨k, l, hk, hrest⟩ := ih ht hok
    exact ⟨k, l, by omega, hrest⟩
  | case6 => cases hok
  | case7 depth body r c s' hbump =>
    rename_i ih
    obtain ⟨j, hij, hs⟩ := hb.bump hbump
    obtain ⟨k, l, hk, hrest⟩ := ih ((hs.sigil _).push _) hok
    exact ⟨k, l, by omega, hrest⟩
  | case8 body r s' _ hbump =>
    obtain ⟨j, hij, hs⟩ := hb.bump hbump
    obtain ⟨rfl, rfl⟩ := Prod.mk.inj (Except.ok.inj hok)
    exact ⟨i, j, Nat.le_refl i, hij, (hs.sigil _).at_, (hb.sigil _).laid, (hb.sigil _).fixed⟩
  | case9 body r s' _ depth hbump =>
    rename_i ih
    obtain ⟨j, hij, hs⟩ := hb.bump hbump
    obtain ⟨k, l, hk, hrest⟩ := ih ((hs.sigil _).push _) hok
    exact ⟨k, l, by omega, hrest⟩
  | case10 depth body r c s' hbump =>
    rename_i ih
    obtain ⟨j, hij, hs⟩ := hb.bump hbump
    obtain ⟨k, l, hk, hrest⟩ := ih ((hs.sigil _).push _) hok
    exact ⟨k, l, by omega, hrest⟩

end Body

section Segments

variable {source : String} {token : Gap → Reader → Except Failure (Token × Reader)} {h : Heredocs}

/-- The tokens of a segment are laid one behind the other, up to its closing brace. -/
theorem TokenReads.segmentTokens (htoken : TokenReads source token) {q : Quoting}
    {braces lo i : Nat} {tokens result : List Token} {r s : Reader}
    (hr : r.At source (h.addAll source tokens.reverse) i) (hlo : lo ≤ byteAt source.toList i)
    (hlaid : Laid source lo (byteAt source.toList i) tokens.reverse)
    (hok : q.segmentTokens token braces tokens r = .ok (result, s)) :
    ∃ j, i < j ∧ s.At source (h.addAll source result) j ∧
      Laid source lo (byteAt source.toList j) result := by
  fun_induction Quoting.segmentTokens q token braces tokens r generalizing i with
  | case1 braces tokens r gap s' hskip hrest =>
    simp only [hskip, hrest] at hok
    cases hok
  | case2 braces tokens r gap s' hskip c tail hrest hclose =>
    simp only [hskip, hrest, if_pos hclose] at hok
    obtain ⟨rfl, rfl⟩ := Prod.mk.inj (Except.ok.inj hok)
    have hne : s'.rest ≠ [] := by simp [hrest]
    obtain ⟨p, hip, hs, -⟩ := hr.skipTrivia_of_rest hskip hne
    have hline : Inline 1 s'.rest := by
      rw [hrest, hclose.1]
      exact .succ_cons (by decide) (.zero _)
    obtain ⟨j, hpj, hs'⟩ := hs.advance_pos hne Nat.one_pos hline
    exact ⟨j, by omega, hs', hlaid.mono (Nat.le_refl _) (byteAt_le (by omega))⟩
  | case3 braces tokens r gap s' hskip c tail hrest hclose failure hread =>
    simp only [hskip, hrest, if_neg hclose, hread] at hok
    cases hok
  | case4 braces tokens r gap s' hskip c tail hrest hclose t u hread =>
    rename_i hleft _ ih
    simp only [hskip, hrest, if_neg hclose, hread, if_pos hleft] at hok
    have hne : s'.rest ≠ [] := by simp [hrest]
    obtain ⟨p, hip, hs, -⟩ := hr.skipTrivia_of_rest hskip hne
    obtain ⟨j, hpj, -, hu, hlaid'⟩ := (htoken _ _ _ _ _ _ hs hread).laid_append hlaid hlo hip
    have hle : byteAt source.toList i ≤ byteAt source.toList j := byteAt_le (by omega)
    rw [← List.reverse_cons] at hu hlaid'
    obtain ⟨l, hjl, hrest⟩ := ih (hu.note t) (Nat.le_trans hlo hle) hlaid' hok
    exact ⟨l, by omega, hrest⟩
  | case5 braces tokens r gap s' hskip c tail hrest hclose t u hread hleft =>
    simp only [hskip, hrest, if_neg hclose, hread, if_neg hleft] at hok
    cases hok

/-- What is interpolated is read in place if its tokens are. -/
theorem TokenReads.segmentWith (htoken : TokenReads source token) :
    SegmentReads source (segmentWith token) := by
  intro h i q r ts s hr hok
  unfold ConnectorAudit.segmentWith at hok
  simp only at hok
  split at hok
  · cases hok
  · next tokens u hread =>
    obtain ⟨rfl, rfl⟩ := Prod.mk.inj (Except.ok.inj hok)
    have hinner : { r with previous := none, afterQuestion := false, loopLine := none }.At source
        (h.addAll source [].reverse) i := hr.congr rfl rfl
    obtain ⟨j, hij, hu, hlaid⟩ :=
      htoken.segmentTokens hinner (Nat.le_refl _) .nil hread
    exact ⟨j, hij, hu.congr rfl rfl, hlaid⟩

theorem segmentReads_noSegment (source : String) : SegmentReads source noSegment := by
  intro h i q r ts s _ hok
  cases hok

end Segments

/-! ## kinds of literals -/

/-- The head of a percent literal stands on one line. -/
theorem PercentHead.ofChars?_eq_some {cs : List Char} {head : PercentHead}
    (h : PercentHead.ofChars? cs = some head) : 0 < head.length ∧ Inline head.length cs := by
  unfold ofChars? at h
  split at h
  · next c cs =>
    split at h
    · next hform =>
      have hc : c ≠ '\n' := by
        rintro rfl
        exact absurd hform (by decide)
      split at h
      · next d _ =>
        split at h
        · cases h
        · next hblank =>
          have hd : d ≠ '\n' := by
            rintro rfl
            exact hblank (by decide)
          obtain rfl := Option.some.inj h
          refine ⟨Nat.succ_pos _, ?_⟩
          exact .succ_cons (by decide) (.succ_cons hc (.succ_cons hd (.zero _)))
      · cases h
    · split at h
      · next hopener =>
        have hc : c ≠ '\n' := by
          rintro rfl
          exact absurd hopener (by decide)
        obtain rfl := Option.some.inj h
        exact ⟨Nat.succ_pos _, .succ_cons (by decide) (.succ_cons hc (.zero _))⟩
      · cases h
  · cases h

namespace SegmentReads

variable {source : String} {segment : SegmentReader} {h : Heredocs} {i : Nat} {r s : Reader}
  {gap : Gap} {t : Token}

/-- The body behind the head of a literal: the tokens below it lie between the first character of
the literal and its last. -/
theorem behind (hsegment : SegmentReads source segment) (hr : r.At source h i) (hne : r.rest ≠ [])
    {n : Nat} (hn : 0 < n) (hline : Inline n r.rest) {q : Quoting} {body : Quoted}
    (hok : q.body segment 0 {} (r.advance n) = .ok (body, s)) :
    ∃ k j, i < j ∧ k < j ∧ s.At source (h.addAll source body.nested) j ∧
      Laid source (byteAt source.toList i + 1) (byteAt source.toList k) body.nested ∧
      (body.dynamic = false → body.nested = []) := by
  obtain ⟨i', hi, hhead⟩ := hr.advance_pos hne hn hline
  have hlt : byteAt source.toList i < byteAt source.toList i' := byteAt_lt hi hhead.le_length
  obtain ⟨k, j, hik, hkj, hs, hlaid, hfixed⟩ := hsegment.body (BodyAt.start hhead hlt) hok
  exact ⟨k, j, by omega, hkj, hs, hlaid, hfixed⟩

/-- A literal reaches at least to its closing delimiter. -/
theorem reads {k j l : Nat} {body : Quoted} {u : Reader} (hr : r.At source h i) (hij : i < j)
    (hkj : k < j) (hjl : j ≤ l) (hu : u.At source (h.addAll source body.nested) l)
    (hlaid : Laid source (byteAt source.toList i + 1) (byteAt source.toList k) body.nested)
    {kind : Token.Kind} {value : Option String}
    (hkind : kind ≠ .string ∨ source.toList[i]? ≠ some '<') :
    Reads source h i (.between kind gap r.cursor u.cursor value body.nested) u := by
  have hlt : byteAt source.toList k < byteAt source.toList l := byteAt_lt (by omega) hu.le_length
  exact .between hr hu (by omega) hlaid hlt hkind

/-- A quotation is read as a token. -/
theorem quotation (hsegment : SegmentReads source segment) (hr : r.At source h i) {quote : Char}
    {cs : List Char} (hrest : r.rest = quote :: cs)
    (hquote : quote = '\'' ∨ quote = '"' ∨ quote = '\x60')
    (hok : r.quotation segment gap quote = .ok (t, s)) : Reads source h i t s := by
  have hhead : source.toList[i]? = some quote := by rw [← hr.head?_eq, hrest, List.head?_cons]
  have hfeed : quote ≠ '\n' := by
    rintro rfl
    revert hquote
    decide
  have hmark : source.toList[i]? ≠ some '<' := by
    rw [hhead]
    rintro heq
    obtain rfl := Option.some.inj heq
    revert hquote
    decide
  have hline : Inline 1 r.rest := hrest ▸ .succ_cons hfeed (.zero _)
  unfold Reader.quotation at hok
  obtain ⟨⟨body, u⟩, hbody, hok⟩ := bind_eq_ok hok
  obtain ⟨k, j, hij, hkj, hu, hlaid, hfixed⟩ :=
    hsegment.behind hr (by simp [hrest]) Nat.one_pos hline hbody
  simp only at hok
  split at hok
  · next hlabel =>
    simp only [Bool.and_eq_true, Bool.not_eq_true'] at hlabel
    obtain ⟨rfl, rfl⟩ := Prod.mk.inj (Except.ok.inj hok)
    rw [hfixed hlabel.1.1.2] at hu
    obtain ⟨l, hjl, hcolon⟩ := hu.advance_le (Inline.of_labelColon hlabel.2)
    exact .plain hr hcolon (by omega) (by decide)
  · obtain ⟨rfl, rfl⟩ := Prod.mk.inj (Except.ok.inj hok)
    exact reads hr hij hkj (Nat.le_refl j) hu hlaid (.inr hmark)

/-- A symbol in quotes is read as a token. -/
theorem quotedSymbol (hsegment : SegmentReads source segment) (hr : r.At source h i) {quote : Char}
    {cs : List Char} (hrest : r.rest = ':' :: quote :: cs) (hquote : quote = '"' ∨ quote = '\'')
    (hok : r.quotedSymbol segment gap quote = .ok (t, s)) : Reads source h i t s := by
  have hfeed : quote ≠ '\n' := by
    rintro rfl
    revert hquote
    decide
  have hline : Inline 2 r.rest :=
    hrest ▸ .succ_cons (by decide) (.succ_cons hfeed (.zero _))
  unfold Reader.quotedSymbol at hok
  obtain ⟨⟨body, u⟩, hbody, hok⟩ := bind_eq_ok hok
  obtain ⟨k, j, hij, hkj, hu, hlaid, -⟩ :=
    hsegment.behind hr (by simp [hrest]) Nat.two_pos hline hbody
  obtain ⟨rfl, rfl⟩ := Prod.mk.inj (Except.ok.inj hok)
  exact reads hr hij hkj (Nat.le_refl j) hu hlaid (.inl (by decide))

/-- What a colon begins is read as a token. -/
theorem colon (hsegment : SegmentReads source segment) (hr : r.At source h i) {cs : List Char}
    (hrest : r.rest = ':' :: cs) (hok : r.colon segment gap = .ok (t, s)) :
    Reads source h i t s := by
  have hne : r.rest ≠ [] := by simp [hrest]
  unfold Reader.colon at hok
  rw [hrest, List.tail_cons] at hok
  split at hok
  · exact .of_ok (hr.punctuation hne gap) hok
  · next c cs =>
    split at hok
    · next hquote => exact hsegment.quotedSymbol hr hrest hquote hok
    · split at hok
      · have hline : Inline (wordLength (c :: cs) + 1) r.rest :=
          hrest ▸ .succ_cons (by decide) (.wordLength _)
        exact .of_ok (hr.take hne _ gap (Nat.succ_pos _) hline _ (by decide)) hok
      · split at hok
        · split at hok
          · next op hop =>
            obtain ⟨hmem, hbegins⟩ := firstOf_eq_some hop
            have hop' := Reader.At.operatorSymbols_inline op hmem
            have hline : Inline (op.length + 1) r.rest :=
              hrest ▸ .succ_cons (by decide) (.of_begins hbegins hop')
            exact .of_ok (hr.take hne _ gap (Nat.succ_pos _) hline _ (by decide)) hok
          · exact .of_ok (hr.punctuation hne gap) hok
        · exact .of_ok (hr.punctuation hne gap) hok

/-- A regex is read as a token. -/
theorem regex (hsegment : SegmentReads source segment) (hr : r.At source h i) {cs : List Char}
    (hrest : r.rest = '/' :: cs) (hok : r.regex segment gap = .ok (t, s)) :
    Reads source h i t s := by
  have hline : Inline 1 r.rest := hrest ▸ .succ_cons (by decide) (.zero _)
  unfold Reader.regex at hok
  obtain ⟨⟨body, u⟩, hbody, hok⟩ := bind_eq_ok hok
  obtain ⟨k, j, hij, hkj, hu, hlaid, -⟩ :=
    hsegment.behind hr (by simp [hrest]) Nat.one_pos hline hbody
  obtain ⟨l, hjl, hflags⟩ := hu.advance_le (.runLength (p := Char.isLower) (by decide) _)
  obtain ⟨rfl, rfl⟩ := Prod.mk.inj (Except.ok.inj hok)
  exact reads hr hij hkj hjl hflags hlaid (.inl (by decide))

/-- A slash is read as a token, be it a regex or a mark. -/
theorem regexOrSlash (hsegment : SegmentReads source segment) (hr : r.At source h i)
    {cs : List Char} (hrest : r.rest = '/' :: cs) (gap : Gap) :
    Reads source h i (r.regexOrSlash segment gap).1 (r.regexOrSlash segment gap).2 := by
  -- An attempt that is given up leaves the reader where it was.
  have hslash : ∀ ended : Bool, Reads source h i ({ r with ended }.punctuation gap).1
      ({ r with ended }.punctuation gap).2 := by
    intro ended
    have hr' : { r with ended }.At source h i := hr.congr rfl rfl
    refine hr'.punctuation ?_ gap
    change r.rest ≠ []
    simp [hrest]
  unfold Reader.regexOrSlash
  split
  · next token u hread =>
    split
    · exact hslash _
    · exact hsegment.regex hr hrest hread
  · exact hslash _

/-- A literal behind a percent sign is read as a token. -/
theorem percent (hsegment : SegmentReads source segment) (hr : r.At source h i) {cs : List Char}
    (hrest : r.rest = '%' :: cs) {head : PercentHead}
    (hhead : PercentHead.ofChars? r.rest = some head)
    (hok : r.percent segment gap head = .ok (t, s)) : Reads source h i t s := by
  obtain ⟨hpos, hline⟩ := PercentHead.ofChars?_eq_some hhead
  have hmark : source.toList[i]? ≠ some '<' := by
    rw [← hr.head?_eq, hrest, List.head?_cons]
    decide
  unfold Reader.percent at hok
  obtain ⟨⟨body, u⟩, hbody, hok⟩ := bind_eq_ok hok
  obtain ⟨k, j, hij, hkj, hu, hlaid, -⟩ := hsegment.behind hr (by simp [hrest]) hpos hline hbody
  have hflags : ∃ l, j ≤ l ∧
      (if head.kind = .regex then u.advance (runLength Char.isLower u.rest) else u).At source
        (h.addAll source body.nested) l := by
    split
    · exact hu.advance_le (.runLength (by decide) _)
    · exact ⟨j, Nat.le_refl j, hu⟩
  obtain ⟨l, hjl, hflags⟩ := hflags
  obtain ⟨rfl, rfl⟩ := Prod.mk.inj (Except.ok.inj hok)
  exact reads hr hij hkj hjl hflags hlaid (.inr hmark)

end SegmentReads

/-! ## block comments -/

namespace Reader.At

variable {source : String} {h : Heredocs} {i : Nat} {r s : Reader}

/-- The end of a block comment is ahead. -/
theorem blockCommentEnd? (hr : r.At source h i) (hend : r.blockCommentEnd? = some s) :
    ∃ j, i < j ∧ s.At source h j := by
  fun_induction Reader.blockCommentEnd? r generalizing i with
  | case1 => cases hend
  | case2 r _ c next hbump =>
    obtain ⟨k, hik, hline⟩ := hr.advance_le (.runLength (p := (· != '\n')) (by decide) _)
    obtain ⟨-, -, l, hkl, hnext, -⟩ := hline.bump hbump
    obtain ⟨j, hlj, hs⟩ := hnext.advance_le (.runLength (p := (· != '\n')) (by decide) _)
    obtain rfl := Option.some.inj hend
    exact ⟨j, by omega, hs⟩
  | case3 r _ c next hbump =>
    rename_i ih
    obtain ⟨k, hik, hline⟩ := hr.advance_le (.runLength (p := (· != '\n')) (by decide) _)
    obtain ⟨-, -, l, hkl, hnext, -⟩ := hline.bump hbump
    obtain ⟨j, hlj, hs⟩ := ih hnext hend
    exact ⟨j, by omega, hs⟩

/-- A block comment is read as a token. -/
theorem blockComment (hr : r.At source h i) {gap : Gap} {t : Token}
    (hok : r.blockComment gap = .ok (t, s)) : Reads source h i t s := by
  unfold Reader.blockComment at hok
  split at hok
  · cases hok
  · next hend =>
    obtain ⟨j, hij, hs⟩ := hr.blockCommentEnd? hend
    obtain ⟨rfl, rfl⟩ := Prod.mk.inj (Except.ok.inj hok)
    exact .plain hr hs hij (by decide)

end Reader.At

/-! ## all tokens -/

/-- Whatever token is read, it reaches to the reader behind it. -/
theorem SegmentReads.tokenWith {source : String} {segment : SegmentReader}
    (hsegment : SegmentReads source segment) : TokenReads source (Reader.tokenWith segment) := by
  intro h i gap r t s hr hok
  unfold Reader.tokenWith at hok
  split at hok
  · cases hok
  · next c cs hrest =>
    have hne : r.rest ≠ [] := by simp [hrest]
    have hpunctuation := hr.punctuation hne gap
    by_cases hcomment : c = '#'
    · rw [if_pos hcomment] at hok
      exact .of_ok (hr.comment (hcomment ▸ hrest) gap) hok
    rw [if_neg hcomment] at hok
    by_cases hblock : c = '=' ∧ Reader.opensBlockComment r.cursor
    · rw [if_pos hblock] at hok
      exact hr.blockComment hok
    rw [if_neg hblock] at hok
    by_cases hquote : c = '\'' ∨ c = '"' ∨ c = '\x60'
    · rw [if_pos hquote] at hok
      exact hsegment.quotation hr hrest hquote hok
    rw [if_neg hquote] at hok
    by_cases hopen : c = '{'
    · rw [if_pos hopen] at hok
      have hline : Inline 1 r.rest := hrest ▸ hopen ▸ .succ_cons (by decide) (.zero _)
      exact .of_ok (hr.take hne _ gap Nat.one_pos hline _ (by decide)) hok
    rw [if_neg hopen] at hok
    by_cases hclose : c = '}'
    · rw [if_pos hclose] at hok
      have hline : Inline 1 r.rest := hrest ▸ hclose ▸ .succ_cons (by decide) (.zero _)
      exact .of_ok (hr.take hne _ gap Nat.one_pos hline _ (by decide)) hok
    rw [if_neg hclose] at hok
    by_cases hcolon : c = ':'
    · rw [if_pos hcolon] at hok
      exact hsegment.colon hr (hcolon ▸ hrest) hok
    rw [if_neg hcolon] at hok
    by_cases hslash : c = '/'
    · rw [if_pos hslash] at hok
      split at hok
      · exact hsegment.regex hr (hslash ▸ hrest) hok
      · split at hok
        · exact .of_ok (hsegment.regexOrSlash hr (hslash ▸ hrest) gap) hok
        · exact .of_ok hpunctuation hok
    rw [if_neg hslash] at hok
    by_cases hpercent : c = '%'
    · rw [if_pos hpercent] at hok
      split at hok
      · next head hhead =>
        split at hok
        · exact hsegment.percent hr (hpercent ▸ hrest) hhead hok
        · exact .of_ok hpunctuation hok
      · exact .of_ok hpunctuation hok
    rw [if_neg hpercent] at hok
    by_cases hmark : c = '<'
    · rw [if_pos hmark] at hok
      split at hok
      · next marker hmarker =>
        split at hok
        · exact hr.heredoc hmarker hok
        · exact .of_ok hpunctuation hok
      · exact .of_ok hpunctuation hok
    rw [if_neg hmark] at hok
    by_cases hsigil : c = '@' ∨ c = '$'
    · rw [if_pos hsigil] at hok
      exact .of_ok (hr.sigilName hrest hsigil gap) hok
    rw [if_neg hsigil] at hok
    by_cases hdigit : c.isDigit = true
    · rw [if_pos hdigit] at hok
      exact .of_ok (hr.numeral hrest hdigit gap) hok
    rw [if_neg hdigit] at hok
    by_cases hname : isNameStart c = true
    · rw [if_pos hname] at hok
      exact .of_ok (hr.word hrest hname gap) hok
    rw [if_neg hname] at hok
    exact .of_ok hpunctuation hok

/-- So it is at all levels of interpolation, each read with the one below it. -/
theorem tokenReads_tokenAt (source : String) (levels : Nat) :
    TokenReads source (Reader.tokenAt levels) := by
  induction levels with
  | zero => exact (segmentReads_noSegment source).tokenWith
  | succ levels ih => exact ih.segmentWith.tokenWith

end ConnectorAudit
