import ConnectorAudit.Proofs.Heredocs

/-!
# Where a reader stands

The invariant of a scan.  `Reader.At` says of a reader that its cursor is the
place of index `i` in the source, and that the jump it keeps is the one that the
heredocs announced so far call for: it waits for the end of this very line and
leads over their bodies and nothing else.

Three lemmas carry it along: `Reader.At.advance` within a line, `Reader.At.bump`
over one character of any kind, and `Reader.At.skipTrivia` over all that may stand
between two tokens.
-/

namespace ConnectorAudit

/-- The jump waits for the end of the line of the place `i`, and leads forwards. -/
def Jump.Awaits (cs : List Char) (i : Nat) (jump : Jump) : Prop :=
  ∃ line resume, jump.bodyStart = byteAt cs line ∧ jump.resume = .place cs resume ∧
    i < line ∧ line ≤ resume ∧ resume ≤ cs.length ∧ cs[line - 1]? = some '\n' ∧
    ∀ x, i ≤ x → x + 1 < line → cs[x]? ≠ some '\n'

namespace Reader

/-- The reader stands at the place of index `i`, with the heredocs `h` announced. -/
structure At (source : String) (h : Heredocs) (i : Nat) (r : Reader) : Prop where
  cursor_eq : r.cursor = .place source.toList i
  le_length : i ≤ source.toList.length
  /-- The jump is that of the bodies that wait for the end of the line. -/
  jump_eq : r.jump = h.waiting (byteAt source.toList i)
  awaits : ∀ jump, r.jump = some jump → jump.Awaits source.toList i
  /-- A body lies behind, or the jump leads over it. -/
  passed : ∀ b ∈ h.bodies, b.2 ≤ byteAt source.toList i ∨
    ∃ jump, r.jump = some jump ∧ jump.bodyStart ≤ b.1 ∧ b.2 ≤ jump.resume.offset
  /-- The jump leads over bodies only. -/
  filled : ∀ jump, r.jump = some jump →
    ∀ byte, jump.bodyStart ≤ byte → byte < jump.resume.offset → h.Holds byte

namespace At

variable {source : String} {h : Heredocs} {i : Nat} {r s : Reader}

/-- The beginning of a scan. -/
theorem start (source : String) : (ofCursor (.ofSource source)).At source {} 0 where
  cursor_eq := Cursor.ofSource_eq_place source
  le_length := Nat.zero_le _
  jump_eq := rfl
  awaits jump hjump := by cases hjump
  passed b hb := by cases hb
  filled jump hjump := by cases hjump

/-- Only the cursor and the jump matter. -/
theorem congr (hr : r.At source h i) (hcursor : s.cursor = r.cursor) (hjump : s.jump = r.jump) :
    s.At source h i where
  cursor_eq := hcursor.trans hr.cursor_eq
  le_length := hr.le_length
  jump_eq := hjump.trans hr.jump_eq
  awaits := hjump ▸ hr.awaits
  passed := hjump ▸ hr.passed
  filled := hjump ▸ hr.filled

theorem note (hr : r.At source h i) (t : Token) : (r.note t).At source h i := by
  refine hr.congr (cursor_note r t) ?_
  unfold Reader.note
  split <;> rfl

theorem rest_eq (hr : r.At source h i) : r.rest = source.toList.drop i := by
  rw [rest, hr.cursor_eq, Cursor.rest_place]

theorem left_eq (hr : r.At source h i) : r.left = source.toList.length - i := by
  rw [left, hr.cursor_eq, Cursor.left_place]

theorem head?_eq (hr : r.At source h i) : r.rest.head? = source.toList[i]? := by
  rw [hr.rest_eq, List.head?_drop]

/-- A reader that stands further on has less left. -/
theorem left_lt {h' : Heredocs} {j : Nat} (hr : r.At source h i) (hs : s.At source h' j)
    (hij : i < j) : s.left < r.left := by
  have := hs.le_length
  rw [hr.left_eq, hs.left_eq]
  omega

/-- No reader stands inside a body. -/
theorem not_holds (hr : r.At source h i) : ¬h.Holds (byteAt source.toList i) := by
  rintro ⟨b, hb, hle, hlt⟩
  cases hr.passed b hb with
  | inl hbehind => omega
  | inr hjump =>
    obtain ⟨jump, hjump, hstart, -⟩ := hjump
    obtain ⟨line, resume, hline, -, hi, hlr, hlen, -⟩ := hr.awaits jump hjump
    have hlt : byteAt source.toList i < byteAt source.toList line := byteAt_lt hi (by omega)
    omega

/-! ## moving within a line -/

/-- Moving on over characters that end no line. -/
theorem move (hr : r.At source h i) {j : Nat} (hij : i ≤ j) (hj : j ≤ source.toList.length)
    (hline : ∀ x, i ≤ x → x < j → source.toList[x]? ≠ some '\n') :
    { r with cursor := .place source.toList j }.At source h j := by
  have hle : byteAt source.toList i ≤ byteAt source.toList j := byteAt_le hij
  -- The line feed that a jump waits for is not among the characters passed.
  have hawaits : ∀ jump, r.jump = some jump → jump.Awaits source.toList j := by
    intro jump hjump
    obtain ⟨line, resume, hstart, hresume, hi, hlr, hlen, hfeed, hno⟩ := hr.awaits jump hjump
    have hjl : j < line := by
      by_contra hnot
      exact hline (line - 1) (by omega) (by omega) hfeed
    exact ⟨line, resume, hstart, hresume, hjl, hlr, hlen, hfeed, fun x hx => hno x (by omega)⟩
  refine ⟨rfl, hj, ?_, hawaits, ?_, hr.filled⟩
  · change r.jump = _
    cases hjump : r.jump with
    | none => exact (Heredocs.waiting_eq_none_of_le (hr.jump_eq.symm.trans hjump) hle).symm
    | some jump =>
      obtain ⟨line, resume, hstart, -, hjl, hlr, hlen, -⟩ := hawaits jump hjump
      have hlt : byteAt source.toList j < jump.bodyStart := hstart ▸ byteAt_lt hjl (by omega)
      obtain ⟨hpending, -⟩ := Heredocs.waiting_eq_some_iff.1 (hr.jump_eq.symm.trans hjump)
      exact (Heredocs.waiting_eq_some_iff.2 ⟨hpending, hlt⟩).symm
  · intro b hb
    cases hr.passed b hb with
    | inl hbehind => exact .inl (Nat.le_trans hbehind hle)
    | inr hjump => exact .inr hjump

/-- Going on within a line leads to a further place. -/
theorem advance (hr : r.At source h i) {n : Nat} (hn : '\n' ∉ r.rest.take n) :
    (r.advance n).At source h (min (i + n) source.toList.length) := by
  have hlen := hr.le_length
  have hcursor : (r.advance n).cursor =
      .place source.toList (min (i + n) source.toList.length) := by
    rw [Cursor.place_min, ← Cursor.advance_place, ← hr.cursor_eq]
    rfl
  refine (hr.move (by omega) (Nat.min_le_right _ _) fun x hx hxn hfeed => hn ?_).congr hcursor rfl
  rw [hr.rest_eq]
  have hget : ((source.toList.drop i).take n)[x - i]? = some '\n' := by
    rw [List.getElem?_take_of_lt (by omega), List.getElem?_drop, Nat.add_sub_cancel' hx, hfeed]
  exact List.mem_of_getElem? hget

/-! ## moving over any character -/

/-- There is no character at the end only. -/
theorem bump_eq_none (hr : r.At source h i) (hb : r.bump = none) :
    i = source.toList.length := by
  have hnext : r.cursor.next? = none := by
    unfold Reader.bump at hb
    split at hb
    · assumption
    · cases hb
  rw [Cursor.next?_eq_none_iff, hr.cursor_eq, Cursor.rest_place, List.drop_eq_nil_iff] at hnext
  exact Nat.le_antisymm hr.le_length hnext

/-- A character of the source is there to be read. -/
theorem exists_bump (hr : r.At source h i) {c : Char} (hc : source.toList[i]? = some c) :
    ∃ s, r.bump = some (c, s) := by
  unfold Reader.bump
  rw [hr.cursor_eq, Cursor.next?_place hc]
  exact ⟨_, rfl⟩

/-- Nothing waits for the end of this line. -/
theorem settle_none (hr : r.At source h i) (hjump : r.jump = none)
    (hc : source.toList[i]? = some '\n') :
    { r with cursor := .place source.toList (i + 1) }.settle.At source h (i + 1) := by
  have hlt := (List.getElem?_eq_some_iff.1 hc).1
  have hle : byteAt source.toList i ≤ byteAt source.toList (i + 1) := byteAt_le (Nat.le_succ i)
  have hsettle : { r with cursor := .place source.toList (i + 1) }.settle =
      { r with cursor := .place source.toList (i + 1) } := by
    unfold Reader.settle
    simp only [hjump]
  rw [hsettle]
  refine ⟨rfl, hlt, ?_, ?_, ?_, hr.filled⟩
  · change r.jump = _
    rw [hjump, Heredocs.waiting_eq_none_of_le (hr.jump_eq.symm.trans hjump) hle]
  · intro jump hsome
    rw [hjump] at hsome
    cases hsome
  · intro b hb
    cases hr.passed b hb with
    | inl hbehind => exact .inl (Nat.le_trans hbehind hle)
    | inr hsome =>
      obtain ⟨jump, hsome, -⟩ := hsome
      rw [hjump] at hsome
      cases hsome

/-- The jump that waits for the end of this line is taken there. -/
theorem settle_some (hr : r.At source h i) {jump : Jump} (hjump : r.jump = some jump)
    (hc : source.toList[i]? = some '\n') :
    ∃ j, i < j ∧ { r with cursor := .place source.toList (i + 1) }.settle.At source h j ∧
      ∀ x, i < x → x < j → h.Holds (byteAt source.toList x) := by
  obtain ⟨line, resume, hstart, hresume, hi, hlr, hlen, hfeed, hno⟩ := hr.awaits jump hjump
  -- The first line feed from here on is the one just read.
  have hline : line = i + 1 := by
    by_contra hne
    exact hno i (Nat.le_refl i) (by omega) hc
  subst hline
  have hle : byteAt source.toList i ≤ byteAt source.toList resume := byteAt_le (by omega)
  have hle' : byteAt source.toList (i + 1) ≤ byteAt source.toList resume := byteAt_le hlr
  have hsettle : { r with cursor := .place source.toList (i + 1) }.settle =
      { r with cursor := .place source.toList resume, jump := none } := by
    unfold Reader.settle
    simp only [hjump]
    rw [hresume, if_pos ⟨hstart, by rw [Cursor.left_place, Cursor.left_place]; omega⟩]
  rw [hsettle]
  refine ⟨resume, by omega, ⟨rfl, hlen, ?_, ?_, ?_, ?_⟩, ?_⟩
  · obtain ⟨hpending, -⟩ := Heredocs.waiting_eq_some_iff.1 (hr.jump_eq.symm.trans hjump)
    cases hwaiting : h.waiting (byteAt source.toList resume) with
    | none => rfl
    | some jump' =>
      obtain ⟨hpending', hlt⟩ := Heredocs.waiting_eq_some_iff.1 hwaiting
      obtain rfl : jump = jump' := Option.some.inj (hpending.symm.trans hpending')
      omega
  · intro jump' hsome
    cases hsome
  · intro b hb
    refine .inl ?_
    cases hr.passed b hb with
    | inl hbehind => exact Nat.le_trans hbehind hle
    | inr hsome =>
      obtain ⟨jump', hsome, -, hb⟩ := hsome
      obtain rfl : jump = jump' := Option.some.inj (hjump.symm.trans hsome)
      rw [hresume] at hb
      exact hb
  · intro jump' hsome
    cases hsome
  · intro x hx hxr
    refine hr.filled jump hjump _ ?_ ?_
    · rw [hstart]
      exact byteAt_le hx
    · rw [hresume, Cursor.offset_place]
      exact byteAt_lt hxr hlen

/-- At the end of a line the jump is taken, if there is one. -/
theorem settle (hr : r.At source h i) (hc : source.toList[i]? = some '\n') :
    ∃ j, i < j ∧ { r with cursor := .place source.toList (i + 1) }.settle.At source h j ∧
      ∀ x, i < x → x < j → h.Holds (byteAt source.toList x) := by
  by_cases hjump : r.jump = none
  · exact ⟨i + 1, Nat.lt_succ_self i, hr.settle_none hjump hc, fun x _ _ => by omega⟩
  · obtain ⟨jump, hjump⟩ := Option.ne_none_iff_exists'.1 hjump
    exact hr.settle_some hjump hc

/-- Reading a character goes on to the next place, over the bodies of heredocs if it ends a
line. -/
theorem bump (hr : r.At source h i) {c : Char} (hb : r.bump = some (c, s)) :
    source.toList[i]? = some c ∧ s.ended = r.ended ∧
      ∃ j, i < j ∧ s.At source h j ∧ (c ≠ '\n' → j = i + 1) ∧
        ∀ x, i < x → x < j → h.Holds (byteAt source.toList x) := by
  unfold Reader.bump at hb
  rw [hr.cursor_eq] at hb
  split at hb
  · cases hb
  · next d cursor hnext =>
    obtain ⟨hc, rfl⟩ := Cursor.next?_place_eq_some hnext
    obtain ⟨rfl, rfl⟩ := Prod.mk.inj (Option.some.inj hb)
    have hlt := (List.getElem?_eq_some_iff.1 hc).1
    refine ⟨hc, ?_, ?_⟩
    · split
      · unfold Reader.settle
        split
        · rfl
        · split <;> rfl
      · rfl
    · by_cases hd : d = '\n'
      · subst hd
        obtain ⟨j, hij, hs, hskipped⟩ := hr.settle hc
        rw [if_pos rfl]
        exact ⟨j, hij, hs, fun hne => absurd rfl hne, hskipped⟩
      · rw [if_neg hd]
        refine ⟨i + 1, Nat.lt_succ_self i, hr.move (Nat.le_succ i) hlt ?_, fun _ => rfl, ?_⟩
        · intro x hx hxi hfeed
          obtain rfl : x = i := by omega
          exact hd (Option.some.inj (hc.symm.trans hfeed))
        · intro x _ _
          omega

end At

/-! ## between tokens -/

/-- A blank between tokens: a space, a tab, a carriage return, a form feed or a line feed. -/
def isSeparator (c : Char) : Bool :=
  c == ' ' || c == '\t' || c == '\r' || c == '\x0c' || c == '\n'

/-- The character of index `x` separates tokens: it is a blank, or escapes a line end. -/
def Separates (cs : List Char) (x : Nat) : Prop :=
  (∃ c, cs[x]? = some c ∧ isSeparator c = true) ∨
    cs[x]? = some '\\' ∧ cs[x + 1]? = some '\n'

/-- The data marker begins with an underscore. -/
theorem atDataMarker_eq_false {cs : List Char} {x : Nat} (h : cs[x]? ≠ some '_') :
    atDataMarker (.place cs x) = false := by
  by_contra hmark
  unfold atDataMarker at hmark
  simp only [Bool.not_eq_false, Bool.and_eq_true, Cursor.startsWith,
    List.isPrefixOf_iff_prefix] at hmark
  obtain ⟨more, hmore⟩ := hmark.1.2
  rw [← List.head?_drop, ← Cursor.rest_place, ← hmore] at h
  exact h rfl

namespace At

variable {source : String} {h : Heredocs} {i : Nat} {r s : Reader}

/-- A separator, and what is held up to the next place read, are passed with what is passed
from there on. -/
theorem passed_of_le {cs : List Char} {j p : Nat} (hsep : Separates cs i)
    (hheld : ∀ x, i < x → x < j → h.Holds (byteAt cs x))
    (hpassed : ∀ x, j ≤ x → x < p → Separates cs x ∨ h.Holds (byteAt cs x)) :
    ∀ x, i ≤ x → x < p → Separates cs x ∨ h.Holds (byteAt cs x) := by
  intro x hx hxp
  by_cases hxi : x = i
  · exact .inl (hxi ▸ hsep)
  · by_cases hxj : x < j
    · exact .inr (hheld x (by omega) hxj)
    · exact hpassed x (by omega) hxp

/-- Between tokens stand characters that separate them and bodies of heredocs.  The reader
stops at the first place that is neither, unless that is the data marker, which ends the scan. -/
theorem skipTrivia (hr : r.At source h i) (gap : Gap) :
    ∃ p s, i ≤ p ∧ s.At source h p ∧ s.ended = r.ended ∧
      (∀ x, i ≤ x → x < p → Separates source.toList x ∨ h.Holds (byteAt source.toList x)) ∧
      ((r.skipTrivia gap).2 = s ∧ ¬Separates source.toList p ∧
          atDataMarker (.place source.toList p) = false ∨
        (r.skipTrivia gap).2 = { s with cursor := s.cursor.atEnd, ended := true } ∧
          atDataMarker (.place source.toList p) = true) := by
  fun_induction Reader.skipTrivia r gap generalizing i with
  | case1 r gap hnone =>
    have hend : source.toList[i]? = none := by
      rw [hr.bump_eq_none hnone]
      exact List.getElem?_eq_none_iff.2 (Nat.le_refl _)
    refine ⟨i, r, Nat.le_refl i, hr, rfl, fun x _ _ => by omega, .inl ⟨rfl, ?_, ?_⟩⟩
    · simp [Separates, hend]
    · exact atDataMarker_eq_false (by simp [hend])
  | case2 r gap c s hb _ hblank ih =>
    obtain ⟨hc, hended, j, hij, hs, -, hheld⟩ := hr.bump hb
    obtain ⟨p, t, hjp, ht, hended', hpassed, hstop⟩ := ih hs
    have hsep : Separates source.toList i := .inl ⟨c, hc, by simp [isSeparator]; tauto⟩
    exact ⟨p, t, by omega, ht, hended'.trans hended, passed_of_le hsep hheld hpassed, hstop⟩
  | case3 r gap s hb _ _ ih =>
    obtain ⟨hc, hended, j, hij, hs, -, hheld⟩ := hr.bump hb
    obtain ⟨p, t, hjp, ht, hended', hpassed, hstop⟩ := ih hs
    have hsep : Separates source.toList i := .inl ⟨_, hc, rfl⟩
    exact ⟨p, t, by omega, ht, hended'.trans hended, passed_of_le hsep hheld hpassed, hstop⟩
  | case4 r gap s t hb' _ hb _ _ _ ih =>
    obtain ⟨hc, hended, j, hij, hs, hj, -⟩ := hr.bump hb
    obtain rfl := hj (by decide)
    obtain ⟨hc', hended', j, hij', ht, -, hheld⟩ := hs.bump hb'
    obtain ⟨p, u, hjp, hu, hended'', hpassed, hstop⟩ := ih ht
    have hsep : Separates source.toList i := .inr ⟨hc, hc'⟩
    have hsep' : Separates source.toList (i + 1) := .inl ⟨_, hc', rfl⟩
    exact ⟨p, u, by omega, hu, (hended''.trans hended').trans hended,
      passed_of_le hsep (fun x _ _ => by omega) (passed_of_le hsep' hheld hpassed), hstop⟩
  | case5 r gap s hno hb =>
    obtain ⟨hc, -, j, hij, hs, hj, -⟩ := hr.bump hb
    obtain rfl := hj (by decide)
    refine ⟨i, r, Nat.le_refl i, hr, rfl, fun x _ _ => by omega, .inl ⟨rfl, ?_, ?_⟩⟩
    · simp only [Separates, hc, Option.some.injEq, exists_eq_left', true_and, not_or]
      refine ⟨by decide, fun hfeed => ?_⟩
      obtain ⟨t, hb'⟩ := hs.exists_bump hfeed
      exact hno t hb'
    · exact atDataMarker_eq_false (by rw [hc]; decide)
  | case6 r gap c s hb _ _ _ _ hmark =>
    refine ⟨i, r, Nat.le_refl i, hr, rfl, fun x _ _ => by omega, .inr ⟨rfl, ?_⟩⟩
    rw [← hr.cursor_eq, hmark]
  | case7 r gap c s hb _ hblank hfeed hslash hmark =>
    obtain ⟨hc, -⟩ := hr.bump hb
    refine ⟨i, r, Nat.le_refl i, hr, rfl, fun x _ _ => by omega, .inl ⟨rfl, ?_, ?_⟩⟩
    · simp [Separates, hc, hslash, isSeparator, hfeed]
      tauto
    · rw [← hr.cursor_eq]
      exact Bool.not_eq_true _ ▸ hmark

/-- If anything is left behind the separators, the reader stands there. -/
theorem skipTrivia_of_rest (hr : r.At source h i) {gap gap' : Gap}
    (hskip : r.skipTrivia gap = (gap', s)) (hne : s.rest ≠ []) :
    ∃ p, i ≤ p ∧ s.At source h p ∧ s.ended = r.ended ∧
      (∀ x, i ≤ x → x < p → Separates source.toList x ∨ h.Holds (byteAt source.toList x)) ∧
      ¬Separates source.toList p ∧ atDataMarker (.place source.toList p) = false := by
  obtain ⟨p, u, hip, hu, hended, hpassed, hstop⟩ := hr.skipTrivia gap
  rw [hskip] at hstop
  cases hstop with
  | inl hstop =>
    obtain ⟨rfl, hstop⟩ := hstop
    exact ⟨p, hip, hu, hended, hpassed, hstop⟩
  | inr hstop =>
    obtain rfl := hstop.1
    exact absurd rfl hne

end At

end Reader

end ConnectorAudit
