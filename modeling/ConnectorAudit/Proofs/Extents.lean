import ConnectorAudit.Proofs.Rescans
import ConnectorAudit.Proofs.Spellings

/-!
# Extents from any byte

What is found from any byte of any source, said of the text and of the tokens that
a scan reads from there.  A stretch in brackets ends with the shortest front of
those tokens that holds as many closing as opening brackets, and there is none if
no front does; the body of a callable ends so behind some token that opens it.

The counting never gets confused at the start, since the first token read at a
bracket is that bracket (`Extent.exists_tokensAt_cons`).

* `Cursor.at?_eq_some_iff`: a byte is a place if the text can be cut there;
* `Reader.At.offset_le_of_mem_trace`: nothing is read that stands before it;
* `Extent.closing?_eq_some_iff_shortest`: the token that is found, by counting;
* `Extent.delimits_of_cutAt`, `Extent.endsBody_of_block`: hence the two extents.
-/

namespace ConnectorAudit

/-! ## cutting a text at a byte -/

namespace Text

/-- The text is `before` up to the byte, and `after` from there on. -/
structure CutAt (source : String) (byte : Nat) (before after : List Char) : Prop where
  toList_eq : source.toList = before ++ after
  byteSize_eq : byteSize before = byte

/-- A character begins before the byte and ends behind it. -/
def Straddled (source : String) (byte : Nat) : Prop :=
  ∃ before c after, source.toList = before ++ c :: after ∧ byteSize before < byte ∧
    byte < byteSize before + c.utf8Size

variable {source : String} {byte : Nat} {before after : List Char}

/-- The byte of a cut is where the characters before it end. -/
theorem CutAt.byteAt_eq (h : CutAt source byte before after) :
    byteAt source.toList before.length = byte := by
  rw [byteAt, h.toList_eq, List.take_left, h.byteSize_eq]

theorem CutAt.length_le (h : CutAt source byte before after) :
    before.length ≤ source.toList.length := by
  simp [h.toList_eq]

/-- A text can be cut at a byte, unless it ends before it or a character straddles it. -/
theorem past_or_straddled_or_cutAt (source : String) (byte : Nat) :
    source.utf8ByteSize < byte ∨ Straddled source byte ∨
      ∃ before after, CutAt source byte before after := by
  suffices h : ∀ (cs : List Char) (n : Nat), byteSize cs < n ∨
      (∃ before c after, cs = before ++ c :: after ∧ byteSize before < n ∧
        n < byteSize before + c.utf8Size) ∨
      ∃ before after, cs = before ++ after ∧ byteSize before = n by
    rw [utf8ByteSize_eq]
    exact (h source.toList byte).imp_right (.imp_right fun ⟨before, after, htext, hsize⟩ =>
      ⟨before, after, htext, hsize⟩)
  intro cs n
  induction cs generalizing n with
  | nil =>
    rcases Nat.eq_zero_or_pos n with rfl | hn
    · exact .inr (.inr ⟨[], [], rfl, rfl⟩)
    · exact .inl hn
  | cons c cs ih =>
    rcases Nat.eq_zero_or_pos n with rfl | hn
    · exact .inr (.inr ⟨[], c :: cs, rfl, rfl⟩)
    rcases Nat.lt_or_ge n c.utf8Size with hlt | hle
    · exact .inr (.inl ⟨[], c, cs, rfl, hn, by simpa [byteSize] using hlt⟩)
    -- Behind the first character, the byte is nearer by its size.
    rcases ih (n - c.utf8Size) with hpast | ⟨before, d, after, rfl, hbegin, hend⟩ |
      ⟨before, after, rfl, hsize⟩
    · exact .inl (by rw [byteSize]; omega)
    · exact .inr (.inl ⟨c :: before, d, after, rfl, by rw [byteSize]; omega, by
        rw [byteSize]; omega⟩)
    · exact .inr (.inr ⟨c :: before, after, rfl, by rw [byteSize]; omega⟩)

/-- A cut is not past the end. -/
theorem CutAt.not_past (h : CutAt source byte before after) : ¬source.utf8ByteSize < byte := by
  rw [utf8ByteSize_eq, h.toList_eq, byteSize_append, h.byteSize_eq]
  omega

/-- A cut is not within a character. -/
theorem CutAt.not_straddled (h : CutAt source byte before after) : ¬Straddled source byte := by
  rintro ⟨front, c, rest, htext, hbegin, hend⟩
  have hfront : byteAt source.toList front.length = byteSize front := by
    rw [byteAt, htext, List.take_left]
  have hnext : byteAt source.toList (front.length + 1) = byteSize front + c.utf8Size := by
    have hc : source.toList[front.length]? = some c := by simp [htext]
    rw [byteAt_succ hc, hfront]
  rcases Nat.lt_or_ge front.length before.length with hlt | hle
  · have hle : byteAt source.toList (front.length + 1) ≤ byteAt source.toList before.length :=
      byteAt_le hlt
    rw [h.byteAt_eq] at hle
    omega
  · have hle : byteAt source.toList before.length ≤ byteAt source.toList front.length :=
      byteAt_le hle
    rw [h.byteAt_eq] at hle
    omega

/-- A text is cut at a byte in one way only. -/
theorem CutAt.unique {front rest : List Char} (h : CutAt source byte before after)
    (h' : CutAt source byte front rest) : front = before ∧ rest = after := by
  have hlength : front.length = before.length := by
    have hle := h.length_le
    have hle' := h'.length_le
    by_contra hne
    rcases Nat.lt_or_gt_of_ne hne with hlt | hlt
    · have := byteAt_lt hlt hle
      rw [h.byteAt_eq, h'.byteAt_eq] at this
      omega
    · have := byteAt_lt hlt hle'
      rw [h.byteAt_eq, h'.byteAt_eq] at this
      omega
  exact List.append_inj (h'.toList_eq.symm.trans h.toList_eq) hlength

end Text

open Text (CutAt Straddled)

namespace Cursor

variable {source : String} {byte : Nat}

/-- Seeking from a place leads to a place with the byte that is sought. -/
theorem exists_of_seek_place {cs : List Char} {i : Nat} (hi : i ≤ cs.length) {k : Cursor}
    (h : (place cs i).seek byte = some k) :
    ∃ j ≤ cs.length, k = place cs j ∧ byteAt cs j = byte := by
  induction hn : cs.length - i generalizing i with
  | zero =>
    have hend : (place cs i).next? = none := next?_place_eq_none (by omega)
    unfold seek at h
    split at h
    · next hbyte => exact ⟨i, hi, (Option.some.inj h).symm, hbyte⟩
    · grind
  | succ n ih =>
    have hnext := next?_place (List.getElem?_eq_getElem (show i < cs.length by omega))
    unfold seek at h
    split at h
    · next hbyte => exact ⟨i, hi, (Option.some.inj h).symm, hbyte⟩
    · exact ih (i := i + 1) (by omega) (by grind) (by omega)

/-- A byte is a place exactly if the text can be cut there. -/
theorem at?_eq_some_iff {k : Cursor} :
    at? source byte = some k ↔
      ∃ before after, CutAt source byte before after ∧ k = place source.toList before.length := by
  constructor
  · intro h
    rw [at?, ofSource_eq_place] at h
    obtain ⟨l, hseek, rfl⟩ := Option.map_eq_some_iff.1 h
    obtain ⟨j, hj, rfl, hbyte⟩ := exists_of_seek_place (Nat.zero_le _) hseek
    rw [locate_place]
    refine ⟨source.toList.take j, source.toList.drop j, ⟨(List.take_append_drop j _).symm, hbyte⟩,
      ?_⟩
    rw [List.length_take, Nat.min_eq_left hj]
  · rintro ⟨before, after, hcut, rfl⟩
    rw [← hcut.byteAt_eq]
    exact at?_place hcut.length_le

/-- There is no cursor past the end, nor within a character. -/
theorem at?_eq_none_iff : at? source byte = none ↔
    source.utf8ByteSize < byte ∨ Straddled source byte := by
  constructor
  · intro h
    rcases Text.past_or_straddled_or_cutAt source byte with hpast | hstraddled | ⟨_, _, hcut⟩
    · exact .inl hpast
    · exact .inr hstraddled
    · rw [at?_eq_some_iff.2 ⟨_, _, hcut, rfl⟩] at h
      cases h
  · intro h
    cases hk : at? source byte with
    | none => rfl
    | some k =>
      obtain ⟨_, _, hcut, -⟩ := at?_eq_some_iff.1 hk
      exact absurd h (not_or.2 ⟨hcut.not_past, hcut.not_straddled⟩)

end Cursor

/-! ## scans from a place on -/

namespace Reader.At

variable {source : String} {h : Heredocs} {i : Nat} {r s : Reader}

/-- A step leads further, and what it reads stands behind the place where it begins. -/
theorem exists_behind_step (hr : r.At source h i) {t : Token}
    (hstep : r.step = .token t s ∨ ∃ f, r.step = .fault f t s) :
    byteAt source.toList i ≤ t.offset ∧ ∃ h' j, i ≤ j ∧ s.At source h' j := by
  obtain ⟨p, hip, u, ht⟩ : ∃ p, i ≤ p ∧ ∃ u, Reads source h p t u ∧ s = u.note t := by
    rcases hstep with hstep | ⟨f, hstep⟩
    · obtain ⟨-, gap, u, v, hskip, hne, hread, rfl⟩ := step_eq_token hstep
      obtain ⟨p, hip, hu, -⟩ := hr.skipTrivia_of_rest hskip hne
      exact ⟨p, hip, v, tokenReads_tokenAt source interpolationLimit h p gap u t v hu hread, rfl⟩
    · obtain ⟨-, gap, u, ended, hskip, hne, rfl, rfl⟩ := step_eq_fault hstep
      obtain ⟨p, hip, hu, -⟩ := hr.skipTrivia_of_rest hskip hne
      have hu' : { u with ended }.At source h p := hu.congr rfl rfl
      exact ⟨p, hip, _, hu'.stray hne gap, rfl⟩
  obtain ⟨ht, rfl⟩ := ht
  obtain ⟨j, hpj, -, hu⟩ := ht.behind
  refine ⟨?_, _, j, by omega, hu.note t⟩
  rw [ht.offset_eq]
  exact byteAt_le hip

/-- Nothing that is read stands before the place where the reading begins. -/
theorem offset_le_of_mem_trace (hr : r.At source h i) {e : Token × Option Fault}
    (he : e ∈ r.trace) : byteAt source.toList i ≤ e.1.offset := by
  fun_induction Reader.trace r generalizing h i with
  | case1 r hstep => cases he
  | case2 r t s hstep ih =>
    obtain ⟨hoffset, h', j, hij, hs⟩ := hr.exists_behind_step (.inl hstep)
    rcases List.mem_cons.1 he with rfl | he
    · exact hoffset
    split at he
    · next hleft => exact Nat.le_trans (byteAt_le hij) (ih hleft hs he)
    · cases he
  | case3 r f t s hstep ih =>
    obtain ⟨hoffset, h', j, hij, hs⟩ := hr.exists_behind_step (.inr ⟨f, hstep⟩)
    rcases List.mem_cons.1 he with rfl | he
    · exact hoffset
    split at he
    · next hleft => exact Nat.le_trans (byteAt_le hij) (ih hleft hs he)
    · cases he

end Reader.At

namespace Extent

variable {opens closes : Token → Bool} {source : String} {start : Nat} {before after : List Char}

/-- The tokens from a byte on, with a stray one for each fault. -/
def tokensAt (source : String) (start : Nat) : List Token :=
  (Cursor.at? source start).elim [] fun k => (Token.scanLossyFrom k).1

/-- The tokens at a cut are those of a reader that knows nothing of what stands before. -/
theorem tokensAt_eq (hcut : CutAt source start before after) :
    tokensAt source start = (Reader.behind before after {}).trace.map Prod.fst := by
  rw [tokensAt, Cursor.at?_eq_some_iff.2 ⟨_, _, hcut, rfl⟩, Option.elim_some, Token.scanLossyFrom,
    Reader.lossyFrom_eq, hcut.toList_eq]
  rfl

/-- No token at a byte ends before it. -/
theorem le_stop_of_mem_tokensAt {u : Token} (hu : u ∈ tokensAt source start) : start ≤ u.stop := by
  cases hk : Cursor.at? source start with
  | none =>
    rw [tokensAt, hk] at hu
    cases hu
  | some k =>
    obtain ⟨before, after, hcut, -⟩ := Cursor.at?_eq_some_iff.1 hk
    have hat : (Reader.behind before after {}).At source {} before.length :=
      ⟨by rw [hcut.toList_eq]; rfl, hcut.length_le, rfl, nofun, nofun, nofun⟩
    rw [tokensAt_eq hcut] at hu
    obtain ⟨e, he, rfl⟩ := List.mem_map.1 hu
    have hle := hat.offset_le_of_mem_trace he
    rw [hcut.byteAt_eq] at hle
    exact Nat.le_trans hle (Nat.le_add_right _ _)

/-! ## the shortest even front -/

/-- The shortest front of the tokens, of those with any token, in which as many delimiters are
closed as are opened. -/
structure ShortestEven (opens closes : Token → Bool) (ts front : List Token) : Prop where
  isFront : front <+: ts
  ne_nil : front ≠ []
  even : front.countP opens = front.countP closes
  shortest : ∀ other, other <+: ts → other ≠ [] → other.countP opens = other.countP closes →
    front.length ≤ other.length

/-- The first token that makes things even ends the shortest even run. -/
theorem exists_firstEven_iff {ts : List Token} {u : Token} :
    (∃ j, ts[j]? = some u ∧ FirstEven opens closes 0 ts j) ↔
      ∃ front, ShortestEven opens closes ts (front ++ [u]) := by
  have heven : ∀ l, Even opens closes 0 l ↔ l.countP opens = l.countP closes := by simp [Even]
  constructor
  · rintro ⟨j, hj, hfirst, hbefore⟩
    obtain ⟨hlt, rfl⟩ := List.getElem?_eq_some_iff.1 hj
    have htake : ts.take (j + 1) = ts.take j ++ [ts[j]] := List.take_succ_eq_append_getElem hlt
    refine ⟨ts.take j, htake ▸ List.take_prefix _ _, List.append_ne_nil_of_right_ne_nil _ (by simp),
      htake ▸ (heven _).1 hfirst, ?_⟩
    intro other hother hne hcount
    obtain ⟨k, hk⟩ : ∃ k, other.length = k + 1 :=
      Nat.exists_eq_add_one.2 (List.length_pos_iff.2 hne)
    have hle : ¬k < j := by
      intro hkj
      refine hbefore k hkj ((heven _).2 ?_)
      rwa [← hk, ← List.prefix_iff_eq_take.1 hother]
    simp only [List.length_append, List.length_take, List.length_singleton]
    omega
  · rintro ⟨front, h⟩
    have htake := List.prefix_iff_eq_take.1 h.isFront
    rw [List.length_append, List.length_singleton] at htake
    have hu : ts[front.length]? = some u := by
      obtain ⟨rest, rfl⟩ := h.isFront
      simp
    refine ⟨front.length, hu, (heven _).2 (htake ▸ h.even), fun k hk hcount => ?_⟩
    obtain ⟨hlt, -⟩ := List.getElem?_eq_some_iff.1 hu
    have hle := h.shortest (ts.take (k + 1)) (List.take_prefix _ _)
      (List.ne_nil_of_length_pos (by rw [List.length_take]; omega)) ((heven _).1 hcount)
    simp only [List.length_append, List.length_take, List.length_singleton] at hle
    omega

/-- From an opener on, the token that is found ends the shortest even front. -/
theorem closing?_eq_some_iff_shortest (hapart : ∀ t, opens t = true → closes t = false)
    {t u : Token} (ht : opens t = true) {ts : List Token} :
    closing? opens closes 1 ts = some u ↔
      ∃ front, ShortestEven opens closes (t :: ts) (front ++ [u]) := by
  have hcons : ∀ l, Even opens closes 0 (t :: l) ↔ Even opens closes 1 l := by
    intro l
    simp [Even, ht, hapart t ht]
    omega
  rw [closing?_eq_some_iff hapart Nat.one_pos, ← exists_firstEven_iff]
  simp only [firstEven_cons hcons Nat.one_pos]
  constructor
  · rintro ⟨j, hj, hfirst⟩
    exact ⟨j + 1, hj, j, rfl, hfirst⟩
  · rintro ⟨_, hj, j, rfl, hfirst⟩
    exact ⟨j, hj, hfirst⟩

/-- Where a front is even, some front is the shortest even one. -/
theorem exists_shortestEven {ts front : List Token} (hfront : front <+: ts) (hne : front ≠ [])
    (heven : front.countP opens = front.countP closes) :
    ∃ front u, ShortestEven opens closes ts (front ++ [u]) := by
  induction hn : front.length using Nat.strongRecOn generalizing front with
  | ind n ih =>
    by_cases hshorter : ∃ other, other <+: ts ∧ other ≠ [] ∧
        other.countP opens = other.countP closes ∧ other.length < n
    · obtain ⟨other, hother, hother', hcount, hlt⟩ := hshorter
      exact ih _ hlt hother hother' hcount rfl
    · obtain rfl | ⟨rest, u, rfl⟩ := List.eq_nil_or_concat front
      · exact absurd rfl hne
      rw [List.concat_eq_append] at hfront hne heven hn
      refine ⟨rest, u, hfront, hne, heven, fun other hother hother' hcount => ?_⟩
      rw [hn]
      by_contra hlt
      exact hshorter ⟨other, hother, hother', hcount, by omega⟩

/-! ## delimiters -/

/-- The brackets, each with the one that closes it. -/
def delimiters : List (Char × Char) := [('(', ')'), ('[', ']'), ('{', '}')]

/-- No token is both delimiters of a pair. -/
theorem isDelimiter_apart {opener closer : Char} (hpair : (opener, closer) ∈ delimiters) (t : Token)
    (ht : isDelimiter t opener = true) : isDelimiter t closer = false := by
  have hne : String.singleton opener ≠ String.singleton closer := by
    simp only [delimiters, List.mem_cons, Prod.mk.injEq, List.not_mem_nil, or_false] at hpair
    rcases hpair with ⟨rfl, rfl⟩ | ⟨rfl, rfl⟩ | ⟨rfl, rfl⟩ <;> decide
  simp only [isDelimiter, Bool.and_eq_true, beq_iff_eq] at ht
  simp [isDelimiter, ht.2, hne]

/-- The first token that is read at a bracket is that bracket. -/
theorem exists_tokensAt_cons {opener closer : Char} (hpair : (opener, closer) ∈ delimiters)
    (hcut : CutAt source start before (opener :: after)) :
    ∃ t ts, tokensAt source start = t :: ts ∧ isDelimiter t opener = true := by
  suffices hspelled : ∃ l n, Spelling.textOf [l] = [opener] ∧
      Reader.Spelled before [l] after {} n ∧ isDelimiter (l.token before) opener = true by
    obtain ⟨l, n, htext, hspelled, hopener⟩ := hspelled
    rw [Reader.Spelled, htext] at hspelled
    rw [tokensAt_eq hcut, ← List.singleton_append, hspelled]
    exact ⟨_, _, rfl, hopener⟩
  simp only [delimiters, List.mem_cons, Prod.mk.injEq, List.not_mem_nil, or_false] at hpair
  rcases hpair with ⟨rfl, -⟩ | ⟨rfl, -⟩ | ⟨rfl, -⟩
  · exact ⟨.mark .tight "(", _, rfl, .mark (c := '(') rfl rfl (by decide) rfl rfl .nil, rfl⟩
  · exact ⟨.mark .tight "[", _, rfl, .mark (c := '[') rfl rfl (by decide) rfl rfl .nil, rfl⟩
  · exact ⟨.opening .tight, _, rfl, .brace (.inl rfl) .nil, rfl⟩

/-- The byte is past the end of the text, inside a character, or not at the opener. -/
def NoOpener (source : String) (start : Nat) (opener : Char) : Prop :=
  source.utf8ByteSize < start ∨ Straddled source start ∨
    ∃ before after, CutAt source start before after ∧ after.head? ≠ some opener

/-- The span from a byte, behind the text `before`, to another one. -/
def spanFrom (before : List Char) (start stop : Nat) : Span :=
  ⟨start, stop - start, Text.lineBehind before, Text.columnBehind before⟩

/-- The span from a cut is that of the source. -/
theorem spanTo_place (hcut : CutAt source start before after) (stop : Nat) :
    spanTo (.place source.toList before.length) stop = spanFrom before start stop := by
  have htake : source.toList.take before.length = before := by simp [hcut.toList_eq]
  simp [spanTo, spanFrom, Cursor.place, hcut.byteAt_eq, htake]

/-- At an opener the extent ends at the closer that makes things even, if there is one. -/
theorem delimited_of_cutAt {opener : Char} (closer : Char)
    (hcut : CutAt source start before (opener :: after)) :
    delimited source start opener closer =
      (closing? (isDelimiter · opener) (isDelimiter · closer) 0 (tokensAt source start)).elim
        (.error (.unbalanced opener.toString start (Text.lineBehind before)
          (Text.columnBehind before)))
        fun t => .ok (spanFrom before start t.stop) := by
  have hat := Cursor.at?_eq_some_iff.2 ⟨_, _, hcut, rfl⟩
  have hhead : (Cursor.place source.toList before.length).rest.head? = some opener := by
    simp [hcut.toList_eq]
  have hplace : (Cursor.place source.toList before.length).line = Text.lineBehind before ∧
      (Cursor.place source.toList before.length).column = Text.columnBehind before := by
    simp [Cursor.place, hcut.toList_eq]
  rw [delimited, tokensAt, hat, Option.elim_some]
  simp only [hhead, if_true, spanTo_place hcut, hplace]
  generalize closing? _ _ _ _ = found
  cases found <;> rfl

/-- What is found at an opener: the stretch through the shortest even front of the tokens, if there
is one, and else that nothing closes the opener. -/
structure Delimits (source : String) (start : Nat) (opener closer : Char) (before : List Char) :
    Prop where
  ok_iff : ∀ span, delimited source start opener closer = .ok span ↔
    ∃ front u, ShortestEven (isDelimiter · opener) (isDelimiter · closer) (tokensAt source start)
      (front ++ [u]) ∧ span = spanFrom before start u.stop ∧ span.stop = u.stop
  unbalanced_iff : delimited source start opener closer =
      .error (.unbalanced opener.toString start (Text.lineBehind before)
        (Text.columnBehind before)) ↔
    ¬∃ front, front <+: tokensAt source start ∧ front ≠ [] ∧
      front.countP (isDelimiter · opener) = front.countP (isDelimiter · closer)

/-- At an opener the extent is as it is specified. -/
theorem delimits_of_cutAt {opener closer : Char} (hpair : (opener, closer) ∈ delimiters)
    (hcut : CutAt source start before (opener :: after)) :
    Delimits source start opener closer before := by
  obtain ⟨t, ts, htokens, ht⟩ := exists_tokensAt_cons hpair hcut
  have hfound : ∀ u, closing? (isDelimiter · opener) (isDelimiter · closer) 0
      (tokensAt source start) = some u ↔
        ∃ front, ShortestEven (isDelimiter · opener) (isDelimiter · closer) (tokensAt source start)
          (front ++ [u]) := by
    intro u
    rw [htokens, closing?, if_pos ht]
    exact closing?_eq_some_iff_shortest (isDelimiter_apart hpair) ht
  have hresult := delimited_of_cutAt closer hcut
  cases hclosing : closing? (isDelimiter · opener) (isDelimiter · closer) 0
      (tokensAt source start) with
  | some u =>
    obtain ⟨front, hfront⟩ := (hfound u).1 hclosing
    have hstop : start ≤ u.stop :=
      le_stop_of_mem_tokensAt (hfront.isFront.subset (by simp))
    rw [hclosing, Option.elim_some] at hresult
    refine ⟨fun span => ?_, ?_⟩
    · rw [hresult, Except.ok.injEq]
      constructor
      · rintro rfl
        exact ⟨front, u, hfront, rfl, Nat.add_sub_cancel' hstop⟩
      · rintro ⟨front', u', hfront', rfl, -⟩
        have hu : some u = some u' := hclosing.symm.trans ((hfound u').2 ⟨front', hfront'⟩)
        rw [Option.some.inj hu]
    · rw [hresult]
      refine iff_of_false (by simp) (not_not.2 ⟨front ++ [u], hfront.isFront, hfront.ne_nil,
        hfront.even⟩)
  | none =>
    have hno : ¬∃ front u, ShortestEven (isDelimiter · opener) (isDelimiter · closer)
        (tokensAt source start) (front ++ [u]) := by
      rintro ⟨front, u, hfront⟩
      rw [(hfound u).2 ⟨front, hfront⟩] at hclosing
      cases hclosing
    rw [hclosing, Option.elim_none] at hresult
    refine ⟨fun span => ?_, ?_⟩
    · rw [hresult]
      refine iff_of_false (by simp) ?_
      rintro ⟨front, u, hfront, -⟩
      exact hno ⟨front, u, hfront⟩
    · rw [hresult]
      refine iff_of_true rfl ?_
      rintro ⟨front, hfront, hne, heven⟩
      exact hno (exists_shortestEven hfront hne heven)

/-- The opener is missed exactly where there is none. -/
theorem delimited_eq_expectedOpener_iff (opener closer : Char) :
    delimited source start opener closer = .error (.expectedOpener (.delimiter opener) start) ↔
      NoOpener source start opener := by
  cases hk : Cursor.at? source start with
  | none =>
    refine iff_of_true (by rw [delimited, hk]) ?_
    exact (Cursor.at?_eq_none_iff.1 hk).imp_right .inl
  | some k =>
    obtain ⟨before, after, hcut, rfl⟩ := Cursor.at?_eq_some_iff.1 hk
    by_cases hhead : after.head? = some opener
    · obtain ⟨rest, rfl⟩ : ∃ rest, after = opener :: rest := by
        cases after with
        | nil => cases hhead
        | cons c rest => exact ⟨rest, by rw [Option.some.inj hhead]⟩
      refine iff_of_false ?_ ?_
      · rw [delimited_of_cutAt closer hcut]
        generalize closing? _ _ _ _ = found
        cases found <;> simp
      · rintro (hpast | hstraddled | ⟨_, _, hcut', hhead'⟩)
        · exact hcut.not_past hpast
        · exact hcut.not_straddled hstraddled
        · obtain ⟨rfl, rfl⟩ := hcut.unique hcut'
          exact hhead' rfl
    · have hrest : (Cursor.place source.toList before.length).rest = after := by
        simp [hcut.toList_eq]
      refine iff_of_true ?_ (.inr (.inr ⟨before, after, hcut, hhead⟩))
      simp only [delimited, hk, hrest, hhead, if_false]

/-! ## callables -/

/-- The kinds of tokens that open bodies, each with the kind that closes them. -/
def families : List (Token.Kind × Token.Kind) :=
  [(.blockStart, .blockEnd), (.braceOpen, .braceClose)]

/-- The span, from behind the text `before`, ends with the first token, behind one of `ts` that
opens a body, at which as many bodies of its kind are closed as are opened. -/
def EndsBody (before : List Char) (start : Nat) (ts : List Token) (span : Span) : Prop :=
  ∃ opens closes, (opens, closes) ∈ families ∧ ∃ skipped opener rest front u,
    ts = skipped ++ opener :: rest ∧ opener.kind = opens ∧
      ShortestEven (·.kind == opens) (·.kind == closes) (opener :: rest) (front ++ [u]) ∧
        span = spanFrom before start u.stop ∧ span.stop = u.stop

/-- What is left out neither opens nor closes. -/
theorem closing?_filter {keep : Token → Bool}
    (hkeep : ∀ t, keep t = false → opens t = false ∧ closes t = false) (depth : Nat)
    (ts : List Token) :
    closing? opens closes depth (ts.filter keep) = closing? opens closes depth ts := by
  induction ts generalizing depth with
  | nil => rfl
  | cons t ts ih =>
    cases ht : keep t with
    | true =>
      rw [List.filter_cons_of_pos ht, closing?, closing?]
      simp only [ih]
    | false =>
      obtain ⟨hopens, hcloses⟩ := hkeep t ht
      rw [List.filter_cons_of_neg (by simp [ht]), ih, closing?, hopens, hcloses]
      simp

/-- What stands behind parentheses is the rest of the tokens. -/
theorem afterParens_suffix (depth : Nat) (ts : List Token) : afterParens depth ts <:+ ts := by
  fun_induction afterParens depth ts with
  | case1 => exact List.suffix_refl _
  | case2 _ t ts _ ih => exact ih.trans (List.suffix_cons t ts)
  | case3 _ t ts => exact List.suffix_cons t ts
  | case4 _ t ts _ _ _ ih => exact ih.trans (List.suffix_cons t ts)
  | case5 _ t ts _ _ ih => exact ih.trans (List.suffix_cons t ts)

/-- What stands behind a head is the rest of the tokens. -/
theorem afterHead_suffix (ts : List Token) : afterHead ts <:+ ts := by
  unfold afterHead
  refine (List.dropWhile_suffix _).trans (List.IsSuffix.trans ?_ (List.dropWhile_suffix isHead))
  split
  · split
    · exact afterParens_suffix 0 _
    · exact List.suffix_refl _
  · exact List.nil_suffix

/-- Behind an opener among the tokens, comments can be left out. -/
theorem endsBody_of_closing? {opens closes : Token.Kind} (hfamily : (opens, closes) ∈ families)
    {skipped rest : List Token} {opener u : Token}
    (htokens : tokensAt source start = skipped ++ opener :: rest) (hkind : opener.kind = opens)
    (hclosing : closing? (·.kind == opens) (·.kind == closes) 1
      (rest.filter (·.kind != .comment)) = some u) (before : List Char) :
    EndsBody before start (tokensAt source start) (spanFrom before start u.stop) := by
  have hkinds : opens ≠ closes ∧ opens ≠ .comment ∧ closes ≠ .comment := by
    simp only [families, List.mem_cons, Prod.mk.injEq, List.not_mem_nil, or_false] at hfamily
    rcases hfamily with ⟨rfl, rfl⟩ | ⟨rfl, rfl⟩ <;> decide
  have hapart : ∀ t : Token, (t.kind == opens) = true → (t.kind == closes) = false := by
    intro t ht
    rw [beq_iff_eq] at ht
    simp [ht, hkinds.1]
  have hcomment : ∀ t : Token, (t.kind != .comment) = false →
      (t.kind == opens) = false ∧ (t.kind == closes) = false := by
    intro t ht
    rw [bne_eq_false_iff_eq] at ht
    simp [ht, hkinds.2.1.symm, hkinds.2.2.symm]
  rw [closing?_filter hcomment, closing?_eq_some_iff_shortest hapart (beq_iff_eq.2 hkind)]
    at hclosing
  obtain ⟨front, hfront⟩ := hclosing
  have hmem : u ∈ tokensAt source start := by
    rw [htokens]
    exact List.mem_append_right _ (hfront.isFront.subset (by simp))
  exact ⟨opens, closes, hfamily, skipped, opener, rest, front, u, htokens, hkind, hfront, rfl,
    Nat.add_sub_cancel' (le_stop_of_mem_tokensAt hmem)⟩

/-- An extent of a block ends its body. -/
theorem endsBody_of_block {span : Span} (h : block source start = .ok span) :
    ∃ before after, CutAt source start before after ∧
      EndsBody before start (tokensAt source start) span := by
  cases hk : Cursor.at? source start with
  | none =>
    rw [block, hk] at h
    cases h
  | some k =>
    obtain ⟨before, after, hcut, rfl⟩ := Cursor.at?_eq_some_iff.1 hk
    refine ⟨before, after, hcut, ?_⟩
    have hscan : (Token.scanLossyFrom (.place source.toList before.length)).1 =
        tokensAt source start := by
      rw [tokensAt, hk, Option.elim_some]
    simp only [block, hk, hscan, spanTo_place hcut] at h
    split at h
    · cases h
    · next opener rest hhead =>
      obtain ⟨skipped, hskipped⟩ := afterHead_suffix
        ((tokensAt source start).filter (·.kind != .comment))
      rw [hhead] at hskipped
      obtain ⟨before₁, after₁, htokens, -, hafter₁⟩ := List.filter_eq_append_iff.1 hskipped.symm
      obtain ⟨before₂, after₂, rfl, -, -, rfl⟩ := List.filter_eq_cons_iff.1 hafter₁
      rw [← List.append_assoc] at htokens
      split at h
      · next hkind =>
        split at h
        · next u hclosing =>
          obtain rfl := Except.ok.inj h
          exact endsBody_of_closing? (by decide) htokens hkind hclosing before
        · cases h
      · next hkind =>
        split at h
        · next u hclosing =>
          obtain rfl := Except.ok.inj h
          exact endsBody_of_closing? (by decide) htokens hkind hclosing before
        · cases h
      · cases h

/-- A byte is at an opener, unless it is past the end, inside a character or at something else. -/
theorem exists_cutAt_of_not_noOpener {opener : Char} (h : ¬NoOpener source start opener) :
    ∃ before after, CutAt source start before (opener :: after) := by
  simp only [NoOpener, not_or, not_exists, not_and, not_not] at h
  obtain ⟨hpast, hstraddled, hhead⟩ := h
  rcases Text.past_or_straddled_or_cutAt source start with h | h | ⟨before, after, hcut⟩
  · exact absurd h hpast
  · exact absurd h hstraddled
  · cases after with
    | nil => cases hhead before [] hcut
    | cons c after =>
      obtain rfl := Option.some.inj (hhead before (c :: after) hcut)
      exact ⟨before, after, hcut⟩

/-- **Extents.** From a byte of a source, the stretch in a pair of brackets is not looked for
exactly if the byte is past the end, inside a character or not at the opening one; else it is found
exactly if some front of the tokens from there on is even, and reaches through the shortest such
front.  Where the body of a callable is found, it reaches through the first token, behind some token
that opens a body, at which all of its kind are closed. -/
theorem extents (source : String) (start : Nat) :
    (∀ opener closer, (opener, closer) ∈ delimiters →
      (delimited source start opener closer = .error (.expectedOpener (.delimiter opener) start) ↔
        NoOpener source start opener) ∧
      (¬NoOpener source start opener → ∃ before after,
        CutAt source start before (opener :: after) ∧
          Delimits source start opener closer before)) ∧
    ∀ span, block source start = .ok span → ∃ before after,
      CutAt source start before after ∧ EndsBody before start (tokensAt source start) span := by
  refine ⟨fun opener closer hpair => ⟨delimited_eq_expectedOpener_iff opener closer, fun h => ?_⟩,
    fun span => endsBody_of_block⟩
  obtain ⟨before, after, hcut⟩ := exists_cutAt_of_not_noOpener h
  exact ⟨before, after, hcut, delimits_of_cutAt hpair hcut⟩

-- The string behind the parenthesis is not closed: its quote is a stray token, and the
-- parenthesis behind the quote counts.
example : delimited "é = (\") (" 5 '(' ')' = .ok ⟨5, 3, 1, 4⟩ ∧
    delimited "é = (\") (" 9 '(' ')' = .error (.unbalanced "(" 9 1 8) := by decide +kernel

/-- Braces in strings, regexes and comments, behind a character of two bytes. -/
def bracesInLiterals : String := "é = \x7b f('\x7d', /\x7d/) # \x7d\n \x7b\x7d \x7d\""

theorem extents_bracesInLiterals :
    ('{', '}') ∈ delimiters ∧ ¬NoOpener bracesInLiterals 5 '{' ∧
      block bracesInLiterals 5 = .ok ⟨5, 23, 1, 4⟩ ∧
      (∃ before after, CutAt bracesInLiterals 5 before ('{' :: after) ∧
        Delimits bracesInLiterals 5 '{' '}' before) ∧
      ∃ before after, CutAt bracesInLiterals 5 before after ∧
        EndsBody before 5 (tokensAt bracesInLiterals 5) ⟨5, 23, 1, 4⟩ := by
  have hfound : delimited bracesInLiterals 5 '{' '}' = .ok ⟨5, 23, 1, 4⟩ ∧
      block bracesInLiterals 5 = .ok ⟨5, 23, 1, 4⟩ := by
    decide +kernel
  obtain ⟨hdelimited, hblock⟩ := extents bracesInLiterals 5
  obtain ⟨hno, hdelimits⟩ := hdelimited '{' '}' (by decide)
  have hopener : ¬NoOpener bracesInLiterals 5 '{' := by
    rw [← hno, hfound.1]
    simp
  exact ⟨by decide, hopener, hfound.2, hdelimits hopener, hblock _ hfound.2⟩

end Extent

end ConnectorAudit
