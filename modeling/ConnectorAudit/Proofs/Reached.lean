import ConnectorAudit.Proofs.Extents
import ConnectorAudit.Proofs.Moves

/-!
# Where readers get

A scan begins at some byte of a source, with nothing before it.  The readers that
moves lead to from there are all that a scan ever comes by, inside of tokens and
in attempts that fail as well.  Such a reader stands at a place of the source with
its jump ahead, until it has met the data marker; then nothing is left and it has
no jump.

A line that ends takes the jump along, so a reader with a jump never stands at the
beginning of a line, and never meets the data marker.

* `Reader.Reached`, `Reader.keptByScans_reached`: the readers that are reached, and that a scan
  goes from one to the next;
* `Reader.StandsSomewhere`, `Reader.Moves.standsSomewhere`: where they stand, as moves keep it;
* `Reader.Reached.standsSomewhere`: hence all of them.
-/

namespace ConnectorAudit

/-! ## columns -/

namespace Cursor

/-- Along a line the column goes on by the characters passed. -/
theorem column_advance {k : Cursor} {n : Nat} (h : Inline n k.rest) :
    (k.advance n).column = k.column + min n k.rest.length := by
  induction n generalizing k with
  | zero => simp [advance]
  | succ n ih =>
    unfold advance
    split
    · next hnone => simp [next?_eq_none_iff.1 hnone]
    · next c l hsome =>
      have hrest := (next?_eq_some hsome).1
      rw [hrest, Inline, List.take_succ_cons, List.mem_cons, not_or] at h
      have hcolumn : l.column = k.column + 1 := by
        unfold next? at hsome
        split at hsome
        · cases hsome
        · obtain ⟨rfl, rfl⟩ := Prod.mk.inj (Option.some.inj hsome)
          unfold past
          rw [if_neg (Ne.symm h.1)]
      rw [ih h.2, hcolumn, hrest, List.length_cons]
      omega

/-- At the end there is nowhere to go on to. -/
theorem advance_of_rest_eq_nil {k : Cursor} (h : k.rest = []) (n : Nat) : k.advance n = k := by
  cases n with
  | zero => rfl
  | succ n =>
    unfold advance
    rw [next?_eq_none_iff.2 h]

end Cursor

namespace Reader

/-! ## jumps under moves -/

variable {source : String} {h : Heredocs} {i : Nat} {r s : Reader}

/-- A jump waits as long as the line goes on. -/
theorem jump_bump {c : Char} (hb : r.bump = some (c, s)) (hc : c ≠ '\n') : s.jump = r.jump := by
  unfold Reader.bump at hb
  split at hb
  · cases hb
  · obtain ⟨rfl, rfl⟩ := Prod.mk.inj (Option.some.inj hb)
    rw [if_neg hc]

/-- A jump that waits for the line feed ahead waits just behind it, and leads forwards. -/
theorem At.awaits_newline (hr : r.At source h i) (hc : source.toList[i]? = some '\n') {jump : Jump}
    (hjump : r.jump = some jump) :
    jump.bodyStart = (Cursor.place source.toList (i + 1)).offset ∧
      jump.resume.left ≤ (Cursor.place source.toList (i + 1)).left := by
  obtain ⟨line, resume, hstart, hresume, hi, hlr, hlen, -, hno⟩ := hr.awaits jump hjump
  have hline : line = i + 1 := by
    by_contra hne
    exact hno i (Nat.le_refl i) (by omega) hc
  subst hline
  refine ⟨hstart, ?_⟩
  rw [hresume, Cursor.left_place, Cursor.left_place]
  omega

/-- A jump that waits is taken at the end of the line. -/
theorem At.jump_bump_newline (hr : r.At source h i) (hb : r.bump = some ('\n', s)) :
    s.jump = none := by
  have hc := (hr.bump hb).1
  unfold Reader.bump at hb
  rw [hr.cursor_eq, Cursor.next?_place hc] at hb
  obtain ⟨-, rfl⟩ := Prod.mk.inj (Option.some.inj hb)
  rw [if_pos rfl]
  unfold Reader.settle
  split
  · next hnone => exact hnone
  · next jump hjump => rw [if_pos (hr.awaits_newline hc hjump)]

/-- Where a heredoc is announced, and what it adds to the jump. -/
theorem heredoc_eq_ok {gap : Gap} {m : Marker} {t : Token} (hok : r.heredoc gap m = .ok (t, s)) :
    ∃ start stop resume, (r.advance m.length).bodyStart? = some start ∧
      m.bodyEnd? start = some (stop, resume) ∧
      t = .between .string gap r.cursor (r.advance m.length).cursor (m.value (start.textTo stop)) ∧
      s.jump = some {
        bodyStart :=
          match (r.advance m.length).jump with
          | some jump => jump.bodyStart
          | none => start.offset
        resume := (r.advance m.length).cursor.locate resume } := by
  unfold heredoc at hok
  simp only at hok
  split at hok
  · cases hok
  · next start hstart =>
    split at hok
    · cases hok
    · next stop resume hend =>
      obtain ⟨rfl, rfl⟩ := Prod.mk.inj (Except.ok.inj hok)
      exact ⟨start, stop, resume, hstart, hend, rfl, rfl⟩

/-! ## where a reader stands -/

/-- The reader stands at the place of index `i`.  The jump it keeps leads forwards, and it has
begun the line that the jump waits for the end of. -/
structure Stands (source : String) (i : Nat) (r : Reader) : Prop where
  exists_at : ∃ h, r.At source h i
  ahead : ∀ {jump}, r.jump = some jump →
    jump.bodyStart < jump.resume.offset ∧ 0 < r.cursor.column

/-- The reader stands at a place of the source, or at its end, with no jump left. -/
def StandsSomewhere (source : String) (r : Reader) : Prop :=
  (∃ i, r.Stands source i) ∨
    r.rest = [] ∧ r.cursor.offset = source.utf8ByteSize ∧ r.jump = none

/-- Where a reader stands does not depend on its memory. -/
theorem Stands.congr (hr : r.Stands source i) (hcursor : s.cursor = r.cursor)
    (hjump : s.jump = r.jump) : s.Stands source i where
  exists_at := by
    obtain ⟨h, hat⟩ := hr.exists_at
    exact ⟨h, hat.congr hcursor hjump⟩
  ahead := by
    intro jump hsome
    rw [hcursor]
    exact hr.ahead (hjump ▸ hsome)

/-- Reading a character leads to a place. -/
theorem Stands.bump (hr : r.Stands source i) {c : Char} (hb : r.bump = some (c, s)) :
    ∃ j, s.Stands source j := by
  obtain ⟨h, hat⟩ := hr.exists_at
  obtain ⟨hc, -, j, hij, hs, hj, -⟩ := hat.bump hb
  refine ⟨j, ⟨h, hs⟩, fun {jump} hsome => ?_⟩
  by_cases hfeed : c = '\n'
  · rw [hat.jump_bump_newline (hfeed ▸ hb)] at hsome
    cases hsome
  · rw [jump_bump hb hfeed] at hsome
    refine ⟨(hr.ahead hsome).1, ?_⟩
    obtain rfl := hj hfeed
    have htake : source.toList.take (i + 1) = source.toList.take i ++ [c] := by
      obtain ⟨hlt, rfl⟩ := List.getElem?_eq_some_iff.1 hc
      exact List.take_succ_eq_append_getElem hlt
    rw [hs.cursor_eq, Cursor.place, htake, Text.columnBehind_concat, if_neg hfeed]
    exact Nat.succ_pos _

/-- Going on within a line leads to a place. -/
theorem Stands.advance (hr : r.Stands source i) {n : Nat} (hn : Inline n r.rest) :
    ∃ j, (r.advance n).Stands source j := by
  obtain ⟨h, hat⟩ := hr.exists_at
  refine ⟨_, ⟨h, hat.advance hn⟩, fun {jump} hsome => ?_⟩
  obtain ⟨hahead, hcolumn⟩ := hr.ahead hsome
  refine ⟨hahead, ?_⟩
  rw [Reader.advance, Cursor.column_advance hn]
  omega

/-- Behind a marker the line has begun, and the jump leads over one more body. -/
theorem Stands.heredoc (hr : r.Stands source i) {m : Marker} {gap : Gap} {t : Token}
    (hm : Marker.ofChars? r.rest = some m) (hok : r.heredoc gap m = .ok (t, s)) :
    ∃ j, s.Stands source j := by
  obtain ⟨h, hat⟩ := hr.exists_at
  obtain ⟨hterm, hpos, hline, -⟩ := Marker.ofChars?_eq_some hm
  obtain ⟨j, -, -, hs⟩ := (hat.heredoc hm hok).behind
  refine ⟨j, ⟨_, hs⟩, fun {jump} hsome => ?_⟩
  obtain ⟨start, stop, resume, hstart, hend, -, hjump⟩ := heredoc_eq_ok hok
  obtain rfl := Option.some.inj (hjump.symm.trans hsome)
  constructor
  · obtain ⟨line, k, rfl, hfirst, -, hlk, hk, -⟩ := (hat.advance hline).bodyStart? hstart
    have hresume := (hat.advance hline).locate_resume hterm hstart hend
    obtain ⟨a, b, -, rfl, hka, hab, hb⟩ := Marker.bodyEnd?_place hterm hk hend
    have hlt : byteAt source.toList line < byteAt source.toList b := byteAt_lt (by omega) hb
    rw [← hfirst] at hlt
    rw [hresume]
    exact hlt
  · have hne : 0 < r.rest.length := by
      refine List.length_pos_iff.2 fun hnil => ?_
      rw [hnil] at hm
      cases hm
    rw [cursor_heredoc hok, Reader.advance, Cursor.column_advance hline]
    change 0 < r.cursor.column + min m.length r.rest.length
    omega

/-- The data marker begins a line, where no jump waits. -/
theorem Stands.data (hr : r.Stands source i) (hmark : atDataMarker r.cursor = true) :
    r.jump = none ∧ r.cursor.offset + byteSize r.rest = source.utf8ByteSize := by
  constructor
  · cases hjump : r.jump with
    | none => rfl
    | some jump =>
      obtain ⟨h, hat⟩ := hr.exists_at
      have hcolumn := (hr.ahead hjump).2
      unfold atDataMarker at hmark
      rw [hat.cursor_eq] at hcolumn hmark
      simp only [Bool.and_eq_true, Cursor.atLineStart_place] at hmark
      omega
  · obtain ⟨h, hat⟩ := hr.exists_at
    rw [hat.rest_eq, hat.cursor_eq, Cursor.offset_place, byteAt, ← byteSize_append,
      List.take_append_drop, utf8ByteSize_eq]

/-- Every move goes from place to place, or to the end. -/
theorem Moves.standsSomewhere (hmove : Moves r s) (hr : r.StandsSomewhere source) :
    s.StandsSomewhere source := by
  rcases hr with ⟨i, hr⟩ | ⟨hnil, hend, hjump⟩
  · cases hmove with
    | bump hb => exact .inl (hr.bump hb)
    | advance hn => exact .inl (hr.advance hn)
    | heredoc hm hok => exact .inl (hr.heredoc hm hok)
    | data hmark =>
      obtain ⟨hjump, hend⟩ := hr.data hmark
      exact .inr ⟨rfl, hend, hjump⟩
    | stay hcursor hjump => exact .inl ⟨i, hr.congr hcursor hjump⟩
  · -- Behind the data marker no move leads anywhere.
    cases hmove with
    | bump hb =>
      have hnone := Cursor.next?_eq_none_iff.2 hnil
      simp [Reader.bump, hnone] at hb
    | advance =>
      have hsame := Cursor.advance_of_rest_eq_nil hnil
      refine .inr ⟨?_, ?_, hjump⟩
      · rw [rest, Reader.advance, hsame]
        exact hnil
      · rw [Reader.advance, hsame]
        exact hend
    | heredoc hm =>
      rw [hnil] at hm
      cases hm
    | data hmark =>
      rw [rest] at hnil
      simp [atDataMarker, Cursor.startsWith, hnil] at hmark
    | stay hcursor hjump' =>
      exact .inr ⟨by rw [rest, hcursor]; exact hnil, by rw [hcursor]; exact hend,
        hjump'.trans hjump⟩

/-! ## readers that are reached -/

/-- Moves lead to the reader from where a scan begins, at some byte of the source. -/
def Reached (source : String) (r : Reader) : Prop :=
  ∃ start k, Cursor.at? source start = some k ∧ (ofCursor k).Leads r

/-- What is led to from something reached is reached. -/
theorem Reached.onto (hr : r.Reached source) (hs : r.Leads s) : s.Reached source := by
  obtain ⟨start, k, hk, hleads⟩ := hr
  exact ⟨start, k, hk, hleads.trans hs⟩

/-- A cursor at a byte is reached. -/
theorem reached_ofCursor {start : Nat} {k : Cursor} (hk : Cursor.at? source start = some k) :
    (ofCursor k).Reached source :=
  ⟨start, k, hk, .refl⟩

/-- The beginning of a scan at any place. -/
theorem at_ofCursor (hi : i ≤ source.toList.length) :
    (ofCursor (.place source.toList i)).At source {} i where
  cursor_eq := rfl
  le_length := hi
  jump_eq := rfl
  awaits jump hjump := by cases hjump
  passed b hb := by cases hb
  filled jump hjump := by cases hjump

/-- What is reached stands at a place. -/
theorem Reached.standsSomewhere (hr : r.Reached source) : r.StandsSomewhere source := by
  obtain ⟨start, k, hk, hleads⟩ := hr
  obtain ⟨before, after, hcut, rfl⟩ := Cursor.at?_eq_some_iff.1 hk
  have hstart := at_ofCursor hcut.length_le
  refine hleads.keeps Moves.standsSomewhere (.inl ⟨before.length, ⟨_, hstart⟩, ?_⟩)
  intro jump hjump
  cases hjump

/-- What is left stands behind the byte reached. -/
theorem Reached.exists_index (hr : r.Reached source) :
    ∃ i, i ≤ source.toList.length ∧ r.left = source.toList.length - i ∧
      r.cursor.offset = byteAt source.toList i := by
  rcases hr.standsSomewhere with ⟨i, hstands⟩ | ⟨hnil, hend, -⟩
  · obtain ⟨h, hat⟩ := hstands.exists_at
    exact ⟨i, hat.le_length, hat.left_eq, by rw [hat.cursor_eq, Cursor.offset_place]⟩
  · refine ⟨source.toList.length, Nat.le_refl _, ?_, ?_⟩
    · rw [left, Cursor.left_eq_length, ← rest, hnil, List.length_nil, Nat.sub_self]
    · rw [hend, utf8ByteSize_eq, byteAt_length]

/-- The less is left, the further on the reader stands. -/
theorem Reached.offset_lt (hr : r.Reached source) (hs : s.Reached source) (hlt : s.left < r.left) :
    r.cursor.offset < s.cursor.offset := by
  obtain ⟨i, hi, hleft, hoffset⟩ := hr.exists_index
  obtain ⟨j, hj, hleft', hoffset'⟩ := hs.exists_index
  rw [hoffset, hoffset']
  exact byteAt_lt (by omega) hj

/-- Of two readers that are reached, the one with less left is further on. -/
theorem Reached.offset_le (hr : r.Reached source) (hs : s.Reached source) (hle : s.left ≤ r.left) :
    r.cursor.offset ≤ s.cursor.offset := by
  obtain ⟨i, hi, hleft, hoffset⟩ := hr.exists_index
  obtain ⟨j, hj, hleft', hoffset'⟩ := hs.exists_index
  rw [hoffset, hoffset']
  exact byteAt_le (by omega)

/-! ## what scans keep -/

/-- The reader of segments where a token may open so many further levels of interpolation. -/
def segmentAt : Nat → SegmentReader
  | 0 => noSegment
  | levels + 1 => segmentWith (tokenAt levels)

theorem tokenAt_eq (levels : Nat) : tokenAt levels = tokenWith (segmentAt levels) := by
  cases levels <;> rfl

theorem segmentYields_segmentAt (levels : Nat) : SegmentYields levels (segmentAt levels) := by
  cases levels with
  | zero => exact segmentYields_noSegment
  | succ levels => exact (tokenYields_tokenAt levels).segmentWith

/-- An attempt at the end of the text is given up there. -/
theorem yields_tokenAt (levels : Nat) (gap : Gap) (r : Reader) :
    Yields (fun t => t.depth ≤ levels) r.Leads (tokenAt levels gap r) := by
  by_cases hnil : r.rest = []
  · rw [tokenAt_eq, tokenWith, hnil]
    exact .of_error (r.leads_failure _)
  · exact (tokenYields_tokenAt levels gap r hnil).mono Passes.leads

/-- A step goes past what it skips and what it reads.  What it reads is nested no deeper than
interpolations may be. -/
theorem passes_step {t : Token} (h : r.step = .token t s ∨ ∃ f, r.step = .fault f t s) :
    t.depth ≤ interpolationLimit ∧ r.Passes s := by
  rcases h with hstep | ⟨f, hstep⟩
  · obtain ⟨-, gap, u, v, hskip, hne, hread, rfl⟩ := step_eq_token hstep
    obtain ⟨hdepth, hv⟩ := (tokenYields_tokenAt _ gap u hne).ok hread
    exact ⟨hdepth, .into (leads_of_skipTrivia hskip) (hv.onto (v.leads_note t))⟩
  · obtain ⟨-, gap, u, ended, hskip, hne, rfl, rfl⟩ := step_eq_fault hstep
    have hended : u.Leads { u with ended } := leads_stay rfl rfl
    have hstray : YieldsToken interpolationLimit { u with ended }
        (.ok ({ u with ended }.stray gap)) :=
      yields_stray hne
    obtain ⟨hdepth, hv⟩ := hstray.ok rfl
    exact ⟨hdepth,
      .into ((leads_of_skipTrivia hskip).trans hended) (hv.onto (leads_note _ _))⟩

/-- Every step of a scan passes something. -/
theorem Follows.passes (h : r.Follows s) : r.Passes s := by
  rcases h with ⟨t, hstep⟩ | ⟨f, t, hstep⟩
  · exact (passes_step (.inl hstep)).2
  · exact (passes_step (.inr ⟨f, hstep⟩)).2

/-- A trace ends, or begins with what the next step reads. -/
theorem trace_cases (r : Reader) :
    r.trace = [] ∨ ∃ (e : Token × Option Fault) (s : Reader),
      (r.step = .token e.1 s ∨ ∃ f, r.step = .fault f e.1 s) ∧ r.trace = e :: s.trace := by
  rw [trace]
  cases hstep : r.step with
  | done => exact .inl rfl
  | token t s =>
    have hleft := (passes_step (.inl hstep)).2.left_lt
    exact .inr ⟨(t, none), s, .inl rfl, by simp only [if_pos hleft]⟩
  | fault f t s =>
    have hleft := (passes_step (.inr ⟨f, hstep⟩)).2.left_lt
    exact .inr ⟨(t, some f), s, .inr ⟨f, rfl⟩, by simp only [if_pos hleft]⟩

/-- Whatever move a scan makes and whatever it reads from a reader with the property, it comes to
a reader with the property, or gives up at one. -/
structure KeptByScans (P : Reader → Prop) : Prop where
  move : ∀ {r s}, P r → Moves r s → P s
  skipTrivia : ∀ {r} gap, P r → P (r.skipTrivia gap).2
  token : ∀ {r} levels gap, P r → Yields (fun _ => True) P (tokenAt levels gap r)
  segment : ∀ {r} levels q, P r → Yields (fun _ => True) P (segmentAt levels q r)
  body : ∀ {r} levels depth body (q : Quoting), P r →
    Yields (fun _ => True) P (q.body (segmentAt levels) depth body r)
  step : ∀ {r s}, P r → Follows r s → P s

/-- A scan stays among the readers that are reached. -/
theorem keptByScans_reached (source : String) : KeptByScans (Reached source) where
  move hr hs := hr.onto (.single hs)
  skipTrivia gap hr := hr.onto (leads_skipTrivia _ gap)
  token levels gap hr := (yields_tokenAt levels gap _).imp (fun _ => trivial) hr.onto
  segment levels q hr := (segmentYields_segmentAt levels q _).imp (fun _ => trivial) hr.onto
  body levels depth body q hr := by
    -- The body may hold tokens from anywhere, so the levels below it are counted in.
    have hbody : ∀ t ∈ body.nested, t.depth < max levels (Token.depthAll body.nested) :=
      Token.depthAll_le_iff.1 (Nat.le_max_right _ _)
    have hsegment := (segmentYields_segmentAt levels).mono
      (Nat.le_max_left levels (Token.depthAll body.nested))
    exact (hsegment.body hbody).imp (fun _ => trivial) hr.onto
  step hr hs := hr.onto hs.passes.leads

end Reader

end ConnectorAudit
