import ConnectorAudit.Proofs.Grafts
import ConnectorAudit.Proofs.Loops

/-!
# Reading a graft

Readers of a stretch, in the text that it is taken from and in the text that it is
set into.  They stand at the same place, have the same behind them, and pass over
what separates tokens alike.

* `Graft.Follows.bump`, `Graft.Follows.skipTrivia`: what is passed over;
* `Graft.Follows.word` and its kin: tokens that do not span lines;
* `Graft.Follows.heredoc`, `Graft.Follows.blockComment`: tokens that look for a line.
-/

namespace ConnectorAudit

namespace Graft

variable (g : Graft)

/-- The jumps wait for the same line of the stretch, and lead to the same place of it. -/
structure Leads (j j' : Jump) : Prop where
  bodyStart : j'.bodyStart = j.bodyStart + g.shift.bytes
  resume : g.Matches j.resume j'.resume

/-- Two readers stand at the same place of the stretch, and have the same behind them. -/
structure Follows (r r' : Reader) : Prop where
  cursor : g.Matches r.cursor r'.cursor
  jump : Option.Rel g.Leads r.jump r'.jump
  previous : r'.previous = r.previous.map fun p => (p.1, p.2 + g.shift.lines)
  afterQuestion : r'.afterQuestion = r.afterQuestion
  loopLine : r'.loopLine = r.loopLine.map (· + g.shift.lines)

/-- What was read of the stretch is the same, and so is where the readers stand, unless the one
stands behind the stretch. -/
def Carries (x y : Token × Reader) : Prop :=
  g.back.length ≤ x.2.left → y.1 = x.1.moved g.shift ∧ g.Follows x.2 y.2

variable {g}

theorem moved_between {k k' l l' : Cursor} (hk : g.Matches k k') (hl : g.Matches l l')
    (kind : Token.Kind) (gap : Gap) (value : Option String) (nested : List Token) :
    Token.between kind gap k' l' value (nested.map (Token.moved g.shift)) =
      (Token.between kind gap k l value nested).moved g.shift := by
  rw [Token.between, Token.between, Token.moved, Token.movedAll_eq_map, hk.textTo_eq hl,
    hk.offset_eq, hk.line_eq, hk.column_eq]

namespace Follows

variable {r r' s s' : Reader}

theorem left_lt_iff (hr : g.Follows r r') (hs : g.Follows s s') :
    s'.left < r'.left ↔ s.left < r.left :=
  hr.cursor.left_lt_iff hs.cursor

theorem advance (h : g.Follows r r') {n : Nat} (hin : g.back.length ≤ (r.advance n).left) :
    g.Follows (r.advance n) (r'.advance n) :=
  { h with cursor := h.cursor.advance hin }

/-- Both readers take their jumps together. -/
theorem settle (h : g.Follows r r') : g.Follows r.settle r'.settle := by
  have hjump := h.jump
  unfold Reader.settle
  generalize hj : r.jump = j at hjump
  generalize hj' : r'.jump = j' at hjump
  cases hjump with
  | none => exact h
  | @some j j' hleads =>
    have hstart : j'.bodyStart = r'.cursor.offset ↔ j.bodyStart = r.cursor.offset := by
      rw [hleads.bodyStart, h.cursor.offset_eq, Nat.add_right_cancel_iff]
    have hleft := h.cursor.left_le_iff hleads.resume
    simp only [hstart, hleft]
    split
    · exact { h with cursor := hleads.resume, jump := .none }
    · exact h

/-- A character of the stretch. -/
theorem bump_of_lt (h : g.Follows r r') {c : Char} (hbump : r.bump = some (c, s))
    (hlt : g.back.length < r.left) : ∃ s', r'.bump = some (c, s') ∧ g.Follows s s' := by
  unfold Reader.bump at hbump ⊢
  cases hnext : r.cursor.next? with
  | none => simp [hnext] at hbump
  | some next =>
    obtain ⟨d, k⟩ := next
    simp only [hnext, Option.some.injEq, Prod.mk.injEq] at hbump
    obtain ⟨rfl, rfl⟩ := hbump
    have hleft : r.left = k.left + 1 := Cursor.left_next? hnext
    obtain ⟨k', hnext', hmatch⟩ := h.cursor.next? hnext (by omega)
    have hs : g.Follows { r with cursor := k } { r' with cursor := k' } :=
      { h with cursor := hmatch }
    simp only [hnext', Option.some.injEq, Prod.mk.injEq, true_and]
    refine ⟨_, rfl, ?_⟩
    split
    · exact hs.settle
    · exact hs

/-- Both readers read the same character as long as it belongs to the stretch. -/
theorem bump (h : g.Follows r r') {c : Char} (hbump : r.bump = some (c, s))
    (hin : g.back.length ≤ s.left) : ∃ s', r'.bump = some (c, s') ∧ g.Follows s s' :=
  h.bump_of_lt hbump (Nat.lt_of_le_of_lt hin (Reader.left_bump hbump))

theorem bump_eq_none (h : g.Follows r r') (hbump : r.bump = none) :
    g.back = [] ∧ r'.bump = none := by
  unfold Reader.bump at hbump ⊢
  cases hnext : r.cursor.next? with
  | none =>
    obtain ⟨hback, hnext'⟩ := h.cursor.next?_eq_none hnext
    simp [hback, hnext']
  | some next => simp [hnext] at hbump

end Follows

end Graft

/-- The character that is read is the next one. -/
theorem Reader.head?_of_bump {r s : Reader} {c : Char} (h : r.bump = some (c, s)) :
    r.rest.head? = some c := by
  unfold Reader.bump at h
  split at h
  · cases h
  · next d k hnext =>
    obtain ⟨rfl, -⟩ := Prod.mk.inj (Option.some.inj h)
    rw [Reader.rest, (Cursor.next?_eq_some hnext).1, List.head?_cons]

theorem Reader.exists_bump_of_head? {r : Reader} {c : Char} (h : r.rest.head? = some c) :
    ∃ s, r.bump = some (c, s) := by
  cases hbump : r.bump with
  | none =>
    unfold Reader.bump at hbump
    split at hbump
    · next hnext =>
      rw [Reader.rest, Cursor.next?_eq_none_iff.1 hnext] at h
      cases h
    · cases hbump
  | some next =>
    obtain ⟨d, s⟩ := next
    rw [head?_of_bump hbump] at h
    exact ⟨s, by rw [Option.some.inj h]⟩

theorem Reader.left_blockCommentEnd?_le {r s : Reader} (h : r.blockCommentEnd? = some s) :
    s.left ≤ r.left := by
  fun_induction blockCommentEnd? r with
  | case1 => cases h
  | case2 r lineEnd c next hb _ _ hword =>
    have hlt := left_bump hb
    have hle : lineEnd.left ≤ r.left := Cursor.left_advance_le _ _
    obtain rfl := Option.some.inj h
    have hend := Cursor.left_advance_le next.cursor (runLength (· != '\n') next.rest)
    exact Nat.le_trans hend (by unfold left at *; omega)
  | case3 r lineEnd c next hb _ _ hword ih =>
    have hlt := left_bump hb
    have hle : lineEnd.left ≤ r.left := Cursor.left_advance_le _ _
    have := ih h
    omega

/-- Where a name ends whose sigil ends here; `$` and any one character is a name too. -/
def Reader.nameEnd (dollar : Bool) (r : Reader) : Reader :=
  if runLength isNameChar r.rest = 0 ∧ dollar then
    match r.bump with
    | none => r
    | some (_, s) => s
  else r.advance (runLength isNameChar r.rest)

theorem Reader.left_nameEnd_le (dollar : Bool) (r : Reader) :
    (r.nameEnd dollar).left ≤ r.left := by
  unfold nameEnd
  split
  · split
    · exact Nat.le_refl _
    · next hb => exact Nat.le_of_lt (left_bump hb)
  · exact Cursor.left_advance_le _ _

theorem Reader.sigilName_eq (r : Reader) (gap : Gap) :
    r.sigilName gap =
      let s := (r.advance (if r.cursor.startsWith "@@" then 2 else 1)).nameEnd
        (r.rest.head? == some '$')
      (.between .identifier gap r.cursor s.cursor, s) := by
  unfold sigilName nameEnd
  simp only [beq_iff_eq]
  split <;> rfl

namespace Graft.Follows

variable {g : Graft} {r r' s s' : Reader}

/-- A character that cannot stand behind the stretch is one of the stretch. -/
theorem lt_left_of_head? (h : g.Follows r r') {c : Char} (hhead : r.rest.head? = some c)
    (hc : c ≠ '"') : g.back.length < r.left := by
  obtain ⟨xs, -, hrest, -⟩ := h.cursor.exists_rest
  rw [Reader.rest, hrest] at hhead
  rw [Reader.left, Cursor.left_eq_length, hrest, List.length_append]
  cases xs with
  | nil =>
    rcases g.ends with ⟨hback, -⟩ | ⟨-, hback, -⟩
    · simp [hback] at hhead
    · simp [hback, hc.symm] at hhead
  | cons x xs =>
    rw [List.length_cons]
    omega

theorem bump_of_ne (h : g.Follows r r') {c : Char} (hbump : r.bump = some (c, s)) (hc : c ≠ '"') :
    ∃ s', r'.bump = some (c, s') ∧ g.Follows s s' :=
  h.bump_of_lt hbump (h.lt_left_of_head? (Reader.head?_of_bump hbump) hc)

/-- Blanks and line ends are passed alike, unless a data marker is met: then nothing is left. -/
theorem skipTrivia (h : g.Follows r r') (gap : Gap) :
    (∃ s', r'.skipTrivia gap = ((r.skipTrivia gap).1, s') ∧ g.Follows (r.skipTrivia gap).2 s') ∨
      (r.skipTrivia gap).2.rest = [] ∧ (g.back = [] → (r'.skipTrivia gap).2.rest = []) := by
  fun_induction Reader.skipTrivia r gap generalizing r' with
  | case1 r gap hb =>
    rw [Reader.skipTrivia_eq, (h.bump_eq_none hb).2]
    exact .inl ⟨r', rfl, h⟩
  | case2 r gap c s hb _ hblank ih =>
    have hc : c ≠ '"' := by
      rintro rfl
      exact absurd hblank (by decide)
    obtain ⟨s', hb', hs⟩ := h.bump_of_ne hb hc
    rw [Reader.skipTrivia_eq, hb']
    simp only [if_pos hblank]
    exact ih hs
  | case3 r gap s hb _ hblank ih =>
    obtain ⟨s', hb', hs⟩ := h.bump_of_ne hb (by decide)
    rw [Reader.skipTrivia_eq, hb']
    simp only [if_neg hblank, if_true]
    exact ih hs
  | case4 r gap s t hb₂ _ hb _ hblank hfeed ih =>
    obtain ⟨s', hb', hs⟩ := h.bump_of_ne hb (by decide)
    obtain ⟨t', hb₂', ht⟩ := hs.bump_of_ne hb₂ (by decide)
    rw [Reader.skipTrivia_eq, hb']
    simp only [if_neg hblank, if_neg hfeed, if_true, hb₂']
    exact ih ht
  | case5 r gap s hno hb _ hblank hfeed =>
    obtain ⟨s', hb', hs⟩ := h.bump_of_ne hb (by decide)
    have hno' : ∀ t', s'.bump ≠ some ('\n', t') := by
      intro t' hb₂'
      have hhead' := Reader.head?_of_bump hb₂'
      rcases hs.cursor.head?_eq with hhead | ⟨-, hsharp⟩
      · obtain ⟨t, hb₂⟩ := Reader.exists_bump_of_head? (hhead ▸ hhead')
        exact hno t hb₂
      · rw [Reader.rest, hsharp] at hhead'
        cases hhead'
    refine .inl ⟨r', ?_, h⟩
    rw [Reader.skipTrivia_eq, hb']
    simp only [if_neg hblank, if_neg hfeed, if_true]
  | case6 r gap c s hb _ hblank hfeed hslash hmark =>
    refine .inr ⟨rfl, fun hback => ?_⟩
    obtain ⟨s', hb', -⟩ := h.bump hb (by rw [hback]; exact Nat.zero_le _)
    rw [Reader.skipTrivia_eq, hb']
    simp only [if_neg hblank, if_neg hfeed, if_neg hslash, h.cursor.atDataMarker_eq, if_pos hmark]
    rfl
  | case7 r gap c s hb _ hblank hfeed hslash hmark =>
    refine .inl ⟨r', ?_, h⟩
    have hstop : ∀ d t', r'.bump = some (d, t') → (d = c ∨ d = '#') →
        r'.skipTrivia gap = (gap, r') := by
      rintro d t' hb' (rfl | rfl)
      · rw [Reader.skipTrivia_eq, hb']
        simp only [if_neg hblank, if_neg hfeed, if_neg hslash, h.cursor.atDataMarker_eq,
          if_neg hmark]
      · rw [Reader.skipTrivia_eq, hb']
        simp [h.cursor.atDataMarker_eq, hmark]
    have hhead := Reader.head?_of_bump hb
    rcases h.cursor.head?_eq with hsame | ⟨-, hsharp⟩
    · obtain ⟨t', hb'⟩ := Reader.exists_bump_of_head? (hsame.trans hhead)
      exact hstop c t' hb' (.inl rfl)
    · obtain ⟨t', hb'⟩ := Reader.exists_bump_of_head? hsharp
      exact hstop '#' t' hb' (.inr rfl)

/-! ## what came before -/

/-- Keeping a token in memory leaves the readers alike. -/
theorem note (h : g.Follows r r') (t : Token) :
    g.Follows (r.note t) (r'.note (t.moved g.shift)) := by
  have hstanding : (t.moved g.shift).standing = t.standing := by
    simp [Token.standing]
  unfold Reader.note
  rw [hstanding]
  split
  · exact h
  · exact { h with previous := by simp, afterQuestion := by simp }

/-- Both readers expect a value, or neither does. -/
theorem valueExpected_eq (h : g.Follows r r') : r'.valueExpected = r.valueExpected := by
  unfold Reader.valueExpected
  rw [h.previous]
  rcases r.previous with _ | ⟨_ | _ | _ | _, _⟩ <;> rfl

/-- A keyword opens a statement for both readers or for neither. -/
theorem statementPosition_eq (h : g.Follows r r') (line : Nat) :
    r'.statementPosition (line + g.shift.lines) = r.statementPosition line := by
  unfold Reader.statementPosition
  rw [h.previous]
  rcases r.previous with _ | ⟨standing, previousLine⟩
  · rfl
  · have hline : (previousLine + g.shift.lines != line + g.shift.lines) =
        (previousLine != line) := by
      rw [Bool.eq_iff_iff, bne_iff_ne, bne_iff_ne]
      omega
    simp [hline]

theorem argumentFollows_eq (h : g.Follows r r') (gap : Gap) {c : Char} {cs : List Char}
    (hrest : r.rest = c :: cs) (hc : c ≠ '}') (hahead : SameAhead r.rest r'.rest) :
    r'.argumentFollows gap = r.argumentFollows gap := by
  rw [hrest] at hahead
  obtain ⟨ds, hrest', htail⟩ := hahead.tail hc
  unfold Reader.argumentFollows
  rw [h.previous, hrest, hrest']
  obtain ⟨rfl, rfl⟩ | ⟨d, xs, ys, rfl, rfl⟩ := htail.eq_nil_or_eq_cons
  all_goals rcases r.previous with _ | ⟨_ | _ | _ | _, _⟩ <;> rfl

/-! ## plain lexemes -/

theorem take (h : g.Follows r r') (kind : Token.Kind) (gap : Gap) (n : Nat)
    (value : Option String := none) :
    g.Carries (r.take kind gap n value) (r'.take kind gap n value) := by
  intro hin
  have hs := h.advance hin
  exact ⟨moved_between h.cursor hs.cursor kind gap value [], hs⟩

/-- A stray character is carried over. -/
theorem stray (h : g.Follows r r') (gap : Gap) : g.Carries (r.stray gap) (r'.stray gap) := by
  unfold Reader.stray
  cases hb : r.bump with
  | none =>
    rw [(h.bump_eq_none hb).2]
    exact fun _ => ⟨moved_between h.cursor h.cursor .other gap none [], h⟩
  | some next =>
    intro hin
    obtain ⟨s', hb', hs⟩ := h.bump hb hin
    rw [hb']
    exact ⟨moved_between h.cursor hs.cursor .other gap none [], hs⟩

/-- A mark is carried over. -/
theorem punctuation (h : g.Follows r r') (hahead : SameAhead r.rest r'.rest) (gap : Gap) :
    g.Carries (r.punctuation gap) (r'.punctuation gap) := by
  unfold Reader.punctuation
  rw [hahead.punctuation_eq]
  split
  · exact h.take _ _ _
  · exact h.stray gap

/-- A comment is carried over. -/
theorem comment (h : g.Follows r r') (gap : Gap) : g.Carries (r.comment gap) (r'.comment gap) := by
  intro hin
  have hline := h.cursor.runLength_line_eq hin
  unfold Reader.comment Reader.rest at hin ⊢
  rw [hline]
  exact h.take _ _ _ none hin

/-- A number is carried over. -/
theorem numeral (h : g.Follows r r') (hahead : SameAhead r.rest r'.rest) (gap : Gap) :
    g.Carries (r.numeral gap) (r'.numeral gap) := by
  unfold Reader.numeral
  rw [hahead.numeralLength_eq]
  exact h.take _ _ _

theorem nameEnd (h : g.Follows r r') (dollar : Bool)
    (hin : g.back.length ≤ (r.nameEnd dollar).left) :
    g.Follows (r.nameEnd dollar) (r'.nameEnd dollar) := by
  have hrun : runLength isNameChar r'.rest = runLength isNameChar r.rest :=
    h.cursor.runLength_eq (by decide) (by decide) (by decide)
  unfold Reader.nameEnd at hin ⊢
  rw [hrun]
  split
  · next hone =>
    rw [if_pos hone] at hin
    cases hb : r.bump with
    | none => rwa [(h.bump_eq_none hb).2]
    | some next =>
      rw [hb] at hin
      obtain ⟨s', hb', hs⟩ := h.bump hb hin
      rwa [hb']
  · next hmore =>
    rw [if_neg hmore] at hin
    exact h.advance hin

/-- A name behind a sigil is carried over. -/
theorem sigilName (h : g.Follows r r') (hahead : SameAhead r.rest r'.rest) (gap : Gap) :
    g.Carries (r.sigilName gap) (r'.sigilName gap) := by
  have hclass := (h.cursor.startsWith_eq "@@" (by decide) (by decide)).1
  rw [Reader.sigilName_eq, Reader.sigilName_eq, hclass, hahead.head?_eq]
  intro hin
  have hname := h.advance (Nat.le_trans hin (Reader.left_nameEnd_le _ _))
  have hs := hname.nameEnd _ hin
  exact ⟨moved_between h.cursor hs.cursor .identifier gap none [], hs⟩

/-- A word is of the same kind for both readers. -/
theorem wordKind_eq (h : g.Follows r r') (word : String) :
    r'.wordKind word = (r.wordKind word).map id (Option.map (· + g.shift.lines)) := by
  have hdo : r.loopLine.map (· + g.shift.lines) = some (r.cursor.line + g.shift.lines) ↔
      r.loopLine = some r.cursor.line := by
    cases r.loopLine <;> simp
  have hprevious := h.previous
  unfold Reader.wordKind
  simp only [apply_ite (Prod.map id (Option.map (· + g.shift.lines))), Prod.map_apply, id,
    h.cursor.line_eq, h.statementPosition_eq r.cursor.line, h.loopLine, hdo]
  rcases hp : r.previous with _ | ⟨_ | _ | _ | _, line⟩
  all_goals
    rw [hp] at hprevious
    rw [hprevious]
    rfl

/-- A word is carried over. -/
theorem word (h : g.Follows r r') (hahead : SameAhead r.rest r'.rest) (gap : Gap) :
    g.Carries (r.word gap) (r'.word gap) := by
  have hlength := hahead.wordLength_eq
  obtain ⟨htext, hbehind⟩ := hahead.take_eq (SameAhead.brace_not_mem_word r.rest)
  unfold Reader.word
  simp only [hlength, htext, hbehind.labelColon_eq, h.afterQuestion, h.wordKind_eq]
  split
  · exact h.take _ _ _ _
  · intro hin
    obtain ⟨htoken, hs⟩ := h.take _ gap _ none hin
    exact ⟨htoken, { hs with loopLine := rfl }⟩

end Graft.Follows

/-! ## results -/

/-- A division sign behind a blank, with no blank behind it.  Such a slash is a division only
because no regex could be read that begins with it. -/
def Token.leans (source : String) (t : Token) : Bool :=
  t.isPunct "/" && t.gap.space &&
    (Cursor.at? source t.stop).any fun k => k.rest.head?.any fun c => !isBlank c

namespace Graft

variable (g : Graft)

/-- No slash among the tokens depends on what stands behind the stretch. -/
def Settled (ts : List Token) : Prop :=
  g.back = [] ∨ ∀ t ∈ Token.preorderAll ts, t.leans (String.ofList g.donor) = false

/-- What is read of the stretch in the one text is read of it in the other, and if the stretch ends
both texts, what cannot be read in the one cannot be in the other. -/
structure Mirrors {α : Type} (tokens : α → List Token) (move : α → α)
    (x y : Except Failure (α × Reader)) : Prop where
  ok : ∀ {a : α} {s : Reader}, x = .ok (a, s) → g.back.length ≤ s.left → g.Settled (tokens a) →
    ∃ s', y = .ok (move a, s') ∧ g.Follows s s'
  error : g.back = [] → ∀ {f : Failure}, x = .error f → ∃ f', y = .error f'

/-- Both read the same token. -/
abbrev MirrorsToken (x y : Except Failure (Token × Reader)) : Prop :=
  g.Mirrors (fun t => [t]) (Token.moved g.shift) x y

variable {g}

theorem Carries.mirrors {x y : Token × Reader} (h : g.Carries x y) :
    g.MirrorsToken (.ok x) (.ok y) where
  ok hx hin _ := by
    obtain rfl := Except.ok.inj hx
    obtain ⟨htoken, hs⟩ := h hin
    exact ⟨y.2, by rw [← htoken], hs⟩
  error _ _ hx := by cases hx

namespace Follows

variable {r r' : Reader}

/-- A body begins at matching places. -/
theorem bodyStart? (h : g.Follows r r') {k : Cursor} (hstart : r.bodyStart? = some k) :
    ∃ k', r'.bodyStart? = some k' ∧ g.Matches k k' := by
  have hjump := h.jump
  unfold Reader.bodyStart? at hstart ⊢
  generalize r.jump = j at hjump hstart
  generalize r'.jump = j' at hjump
  cases hjump with
  | none =>
    obtain ⟨⟨c, l⟩, hnext, rfl⟩ := Option.map_eq_some_iff.1 hstart
    obtain ⟨-, l', hnext', hmatch⟩ := h.cursor.nextLine hnext
    exact ⟨l', by simp [hnext'], hmatch⟩
  | some hleads =>
    obtain rfl := Option.some.inj hstart
    exact ⟨_, rfl, hleads.resume⟩

theorem bodyStart?_eq_none (h : g.Follows r r') (hback : g.back = [])
    (hstart : r.bodyStart? = none) : r'.bodyStart? = none := by
  have hjump := h.jump
  unfold Reader.bodyStart? at hstart ⊢
  generalize r.jump = j at hjump hstart
  generalize r'.jump = j' at hjump
  cases hjump with
  | none =>
    have hnext := h.cursor.nextLine_eq_none hback (Option.map_eq_none_iff.1 hstart)
    simp [hnext]
  | some hleads => cases hstart

/-- A heredoc is read alike by both readers. -/
theorem heredoc (h : g.Follows r r') (gap : Gap) {m : Marker}
    (hm : ∀ c ∈ m.terminator, isNameChar c = true) :
    g.MirrorsToken (r.heredoc gap m) (r'.heredoc gap m) where
  ok {t s} hx hin _ := by
    unfold Reader.heredoc at hx
    simp only at hx
    split at hx
    · cases hx
    · next start hstart =>
      split at hx
      · cases hx
      · next stop resume hbody =>
        obtain ⟨rfl, rfl⟩ := Prod.mk.inj (Except.ok.inj hx)
        have hs := h.advance hin
        obtain ⟨start', hstart', hmatch⟩ := hs.bodyStart? hstart
        obtain ⟨stop', resume', hbody', hstop, hresume⟩ := hmatch.bodyEnd? hm hbody
        unfold Reader.heredoc
        simp only [hstart', hbody', hmatch.textTo_eq hstop]
        refine ⟨_, congrArg Except.ok (Prod.ext ?_ rfl),
          { hs with jump := .some ⟨?_, hs.cursor.locate hresume⟩ }⟩
        · exact moved_between h.cursor hs.cursor .string gap _ []
        · -- The bodies of a line begin where that of the first heredoc on it does.
          have hjump := hs.jump
          generalize (r.advance m.length).jump = j at hjump ⊢
          generalize (r'.advance m.length).jump = j' at hjump ⊢
          cases hjump with
          | none => exact hmatch.offset_eq
          | some hleads => exact hleads.bodyStart
  error hback f hx := by
    have hs : g.Follows (r.advance m.length) (r'.advance m.length) :=
      h.advance (by rw [hback]; exact Nat.zero_le _)
    unfold Reader.heredoc at hx ⊢
    simp only at hx ⊢
    split at hx
    · next hstart =>
      rw [hs.bodyStart?_eq_none hback hstart]
      exact ⟨_, rfl⟩
    · next start hstart =>
      split at hx
      · next hbody =>
        obtain ⟨start', hstart', hmatch⟩ := hs.bodyStart? hstart
        simp only [hstart', hmatch.bodyEnd?_eq_none hback hbody]
        exact ⟨_, rfl⟩
      · cases hx

/-! ## block comments -/

/-- The reader behind the end of a line. -/
theorem bumpLine (h : g.Follows r r') {c : Char} {s : Reader}
    (hbump : (r.advance (runLength (· != '\n') r.rest)).bump = some (c, s))
    (hin : g.back.length ≤ s.left) :
    ∃ s', (r'.advance (runLength (· != '\n') r'.rest)).bump = some (c, s') ∧ g.Follows s s' := by
  have hend : g.back.length ≤ (r.advance (runLength (· != '\n') r.rest)).left :=
    Nat.le_of_lt (Nat.lt_of_le_of_lt hin (Reader.left_bump hbump))
  have hline := h.cursor.runLength_line_eq hend
  unfold Reader.rest at hbump hend ⊢
  rw [hline]
  exact (h.advance hend).bump hbump hin

theorem advanceLine (h : g.Follows r r')
    (hin : g.back.length ≤ (r.advance (runLength (· != '\n') r.rest)).left) :
    g.Follows (r.advance (runLength (· != '\n') r.rest))
      (r'.advance (runLength (· != '\n') r'.rest)) := by
  have hline := h.cursor.runLength_line_eq hin
  unfold Reader.rest at hin ⊢
  rw [hline]
  exact h.advance hin

theorem startsWith_end_eq (h : g.Follows r r') :
    r'.cursor.startsWith "=end" = r.cursor.startsWith "=end" :=
  (h.cursor.startsWith_eq "=end" (by decide) (by decide)).1

/-- A block comment ends at matching places. -/
theorem blockCommentEnd? (h : g.Follows r r') {s : Reader} (hend : r.blockCommentEnd? = some s)
    (hin : g.back.length ≤ s.left) : ∃ s', r'.blockCommentEnd? = some s' ∧ g.Follows s s' := by
  fun_induction Reader.blockCommentEnd? r generalizing r' with
  | case1 => cases hend
  | case2 r lineEnd c next hb =>
    rename_i hword
    obtain rfl := Option.some.inj hend
    obtain ⟨next', hb', hnext⟩ := h.bumpLine hb (Nat.le_trans hin (Cursor.left_advance_le _ _))
    rw [Reader.blockCommentEnd?_eq, hb']
    simp only [hnext.startsWith_end_eq, if_pos hword]
    exact ⟨_, rfl, hnext.advanceLine hin⟩
  | case3 r lineEnd c next hb =>
    rename_i hword ih
    obtain ⟨next', hb', hnext⟩ :=
      h.bumpLine hb (Nat.le_trans hin (Reader.left_blockCommentEnd?_le hend))
    rw [Reader.blockCommentEnd?_eq, hb']
    simp only [hnext.startsWith_end_eq, if_neg hword]
    exact ih hnext hend

theorem blockCommentEnd?_eq_none (h : g.Follows r r') (hback : g.back = [])
    (hend : r.blockCommentEnd? = none) : r'.blockCommentEnd? = none := by
  have hin : ∀ s : Reader, g.back.length ≤ s.left := fun s => by simp [hback]
  fun_induction Reader.blockCommentEnd? r generalizing r' with
  | case1 r lineEnd =>
    rename_i hb
    rw [Reader.blockCommentEnd?_eq, ((h.advanceLine (hin _)).bump_eq_none hb).2]
  | case2 => cases hend
  | case3 r lineEnd c next hb =>
    rename_i hword ih
    obtain ⟨next', hb', hnext⟩ := h.bumpLine hb (hin _)
    rw [Reader.blockCommentEnd?_eq, hb']
    simp only [hnext.startsWith_end_eq, if_neg hword]
    exact ih hnext hend

/-- A block comment is read alike by both readers. -/
theorem blockComment (h : g.Follows r r') (gap : Gap) :
    g.MirrorsToken (r.blockComment gap) (r'.blockComment gap) where
  ok {t s} hx hin _ := by
    unfold Reader.blockComment at hx ⊢
    split at hx
    · cases hx
    · next hend =>
      obtain ⟨rfl, rfl⟩ := Prod.mk.inj (Except.ok.inj hx)
      obtain ⟨s', hend', hs⟩ := h.blockCommentEnd? hend hin
      rw [hend']
      exact ⟨s', congrArg Except.ok (Prod.ext (moved_between h.cursor hs.cursor _ _ _ []) rfl), hs⟩
  error hback f hx := by
    unfold Reader.blockComment at hx ⊢
    split at hx
    · next hend =>
      rw [h.blockCommentEnd?_eq_none hback hend]
      exact ⟨_, rfl⟩
    · cases hx

end Follows

end Graft

end ConnectorAudit
