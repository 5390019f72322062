import Mathlib.Data.List.TakeWhile
import ConnectorAudit.Proofs.Literals
import ConnectorAudit.Proofs.Lookahead
import ConnectorAudit.Proofs.Shifts

/-!
# Grafts

A stretch of text that is set into another text.  What is read of it there is what
was read of it before, shifted: `Graft.Matches` says of two cursors that they stand
at the same place of the stretch, `Graft.Follows` says it of two readers, and each
way to move on keeps both.

The stretch may end both texts.  Or it ends in a brace, with a quotation mark behind
it in the one text and another segment in the other: then what is read is the same as
long as it ends in the stretch.
-/

namespace ConnectorAudit

/-! ## cursors -/

theorem Cursor.left_advance (k : Cursor) (n : Nat) : (k.advance n).left = k.left - n := by
  induction n generalizing k with
  | zero => rfl
  | succ n ih =>
    unfold advance
    split
    · next hnone =>
      rw [left_eq_length, next?_eq_none_iff.1 hnone]
      simp
    · next hsome =>
      have := left_next? hsome
      rw [ih]
      omega

/-- The first line is everything if there is no line feed. -/
theorem takeWhile_line_eq_self_iff {cs : List Char} :
    cs.takeWhile (· != '\n') = cs ↔ '\n' ∉ cs := by
  rw [List.takeWhile_eq_self_iff]
  constructor
  · intro hall hmem
    simpa using hall _ hmem
  · exact fun hno c hc => by simpa using ne_of_mem_of_not_mem hc hno

/-- The line of a place is the last one if no line end follows. -/
theorem Cursor.next?_skipWhile_eq_none_iff {k : Cursor} :
    (k.skipWhile (· != '\n')).next? = none ↔ '\n' ∉ k.rest := by
  have hle := (List.takeWhile_prefix (p := (· != '\n')) (l := k.rest)).length_le
  rw [next?_eq_none_iff, ← List.length_eq_zero_iff, ← left_eq_length, skipWhile, left_advance,
    left_eq_length, ← takeWhile_line_eq_self_iff]
  constructor
  · exact fun hzero => (List.takeWhile_prefix _).eq_of_length_le (by omega)
  · exact fun hself => by rw [hself, Nat.sub_self]

namespace Text

/-- Behind a line feed the column does not depend on what stands before. -/
theorem columnBehind_append_of_mem {xs ys : List Char} (h : '\n' ∈ ys) :
    columnBehind (xs ++ ys) = columnBehind ys := by
  obtain ⟨as, bs, hsplit, hbs⟩ := List.eq_append_cons_of_mem (List.mem_reverse.2 h)
  have hrun : ∀ zs : List Char, (ys.reverse ++ zs).takeWhile (· != '\n') = as := by
    intro zs
    rw [hsplit, List.append_assoc, List.takeWhile_append_of_pos]
    · simp
    · exact fun c hc => by simpa using ne_of_mem_of_not_mem hc hbs
  have hrun' := hrun []
  rw [List.append_nil] at hrun'
  rw [columnBehind, columnBehind, List.reverse_append, hrun, hrun']

/-- Without a line feed columns add up. -/
theorem columnBehind_append_of_not_mem {xs ys : List Char} (h : '\n' ∉ ys) :
    columnBehind (xs ++ ys) = columnBehind xs + ys.length := by
  rw [columnBehind, columnBehind, List.reverse_append, List.takeWhile_append_of_pos]
  · rw [List.length_append, List.length_reverse, Nat.add_comm]
  · intro c hc
    simpa using ne_of_mem_of_not_mem (List.mem_reverse.1 hc) h

end Text

/-! ## grafts -/

/-- A stretch of text with what stands around it in one text, and what does in another. -/
structure Graft where
  stretch : List Char
  /-- What stands before the stretch in the one text and in the other. -/
  front : List Char
  front' : List Char
  /-- What stands behind the stretch in the one text and in the other. -/
  back : List Char
  back' : List Char
  shift : Shift
  front_ne_nil : front ≠ []
  newline_not_mem_front : '\n' ∉ front
  bytes_eq : byteSize front' = byteSize front + shift.bytes
  lines_eq : Text.lineBehind front' = Text.lineBehind front + shift.lines
  columns_eq : Text.columnBehind front' = Text.columnBehind front + shift.columns
  /-- The stretch ends both texts, or it ends in a brace: then a quotation mark ends the one text,
  and another segment follows in the other. -/
  ends : back = [] ∧ back' = [] ∨
    (∃ code, stretch = code ++ ['}']) ∧ back = ['"'] ∧ back'.head? = some '#'

namespace Graft

variable (g : Graft)

/-- The text that the stretch is taken from. -/
def donor : List Char := g.front ++ (g.stretch ++ g.back)

/-- The text that the stretch is set into. -/
def host : List Char := g.front' ++ (g.stretch ++ g.back')

/-- Two cursors stand at the same place of the stretch, the one in the text that it is taken from
and the other in the text that it is set into. -/
def Matches (k k' : Cursor) : Prop :=
  ∃ m ≤ g.stretch.length, k = .place g.donor (g.front.length + m) ∧
    k' = .place g.host (g.front'.length + m)

variable {g}

/-- Behind its front the donor has the stretch and its back. -/
theorem drop_donor (m : Nat) :
    g.donor.drop (g.front.length + m) = (g.stretch ++ g.back).drop m := by
  rw [donor, ← List.drop_drop, List.drop_left]

/-- Behind its front the host has the stretch and its back. -/
theorem drop_host (m : Nat) :
    g.host.drop (g.front'.length + m) = (g.stretch ++ g.back').drop m := by
  rw [host, ← List.drop_drop, List.drop_left]

theorem take_donor {m : Nat} (hm : m ≤ g.stretch.length) :
    g.donor.take (g.front.length + m) = g.front ++ g.stretch.take m := by
  rw [donor, List.take_length_add_append, List.take_append_of_le_length hm]

theorem take_host {m : Nat} (hm : m ≤ g.stretch.length) :
    g.host.take (g.front'.length + m) = g.front' ++ g.stretch.take m := by
  rw [host, List.take_length_add_append, List.take_append_of_le_length hm]

/-- The front of the donor is within one line. -/
theorem lineBehind_front : Text.lineBehind g.front = 1 := by
  rw [Text.lineBehind, List.count_eq_zero.2 g.newline_not_mem_front]

theorem columnBehind_front_pos : 0 < Text.columnBehind g.front := by
  have hne := g.front_ne_nil
  have hmem := g.newline_not_mem_front
  rw [Nat.pos_iff_ne_zero, Ne, Text.columnBehind_eq_zero_iff, not_or]
  exact ⟨hne, fun hlast => hmem (List.mem_of_getLast? hlast)⟩

namespace Matches

variable {k k' l l' : Cursor}

/-- Both cursors stand in front of the same part of the stretch. -/
theorem exists_rest (h : g.Matches k k') :
    ∃ xs, xs <:+ g.stretch ∧ k.rest = xs ++ g.back ∧ k'.rest = xs ++ g.back' := by
  obtain ⟨m, hm, rfl, rfl⟩ := h
  refine ⟨g.stretch.drop m, List.drop_suffix m _, ?_, ?_⟩
  · rw [Cursor.rest_place, drop_donor, List.drop_append_of_le_length hm]
  · rw [Cursor.rest_place, drop_host, List.drop_append_of_le_length hm]

/-- What is left differs by what is behind the stretch. -/
theorem left_eq (h : g.Matches k k') : k'.left + g.back.length = k.left + g.back'.length := by
  obtain ⟨xs, -, hrest, hrest'⟩ := h.exists_rest
  rw [Cursor.left_eq_length, Cursor.left_eq_length, hrest, hrest', List.length_append,
    List.length_append]
  omega

/-- Cursors that match go forwards together. -/
theorem left_lt_iff (hk : g.Matches k k') (hl : g.Matches l l') :
    l'.left < k'.left ↔ l.left < k.left := by
  have := hk.left_eq
  have := hl.left_eq
  omega

theorem left_le_iff (hk : g.Matches k k') (hl : g.Matches l l') :
    l'.left ≤ k'.left ↔ l.left ≤ k.left := by
  have := hk.left_eq
  have := hl.left_eq
  omega

/-! ## where the places are -/

/-- Offsets differ by the bytes of the shift. -/
theorem offset_eq (h : g.Matches k k') : k'.offset = k.offset + g.shift.bytes := by
  obtain ⟨m, hm, rfl, rfl⟩ := h
  have hbytes := g.bytes_eq
  rw [Cursor.offset_place, Cursor.offset_place, byteAt, byteAt, take_donor hm, take_host hm,
    byteSize_append, byteSize_append]
  omega

/-- Lines differ by the lines of the shift. -/
theorem line_eq (h : g.Matches k k') : k'.line = k.line + g.shift.lines := by
  obtain ⟨m, hm, rfl, rfl⟩ := h
  have hlines := g.lines_eq
  change Text.lineBehind _ = Text.lineBehind _ + _
  rw [take_donor hm, take_host hm, Text.lineBehind_append, Text.lineBehind_append]
  omega

/-- Columns differ on the first line of the stretch only. -/
theorem column_eq (h : g.Matches k k') : k'.column = g.shift.column k.line k.column := by
  obtain ⟨m, hm, rfl, rfl⟩ := h
  have hcolumns := g.columns_eq
  have hfirst := g.lineBehind_front
  change Text.columnBehind _ = g.shift.column (Text.lineBehind _) (Text.columnBehind _)
  rw [take_donor hm, take_host hm, Text.lineBehind_append, hfirst, Shift.column]
  by_cases hfeed : '\n' ∈ g.stretch.take m
  · have hcount := List.count_pos_iff.2 hfeed
    rw [if_neg (by omega), Text.columnBehind_append_of_mem hfeed,
      Text.columnBehind_append_of_mem hfeed]
  · rw [if_pos (by rw [List.count_eq_zero.2 hfeed]), Text.columnBehind_append_of_not_mem hfeed,
      Text.columnBehind_append_of_not_mem hfeed]
    omega

/-- No place of the first line of a stretch is the beginning of a line. -/
theorem atLineStart_eq (h : g.Matches k k') : k'.atLineStart = k.atLineStart := by
  have hcolumn := h.column_eq
  obtain ⟨m, hm, rfl, rfl⟩ := h
  have hpos := g.columnBehind_front_pos
  have hfirst := g.lineBehind_front
  rw [Bool.eq_iff_iff, Cursor.atLineStart_place, Cursor.atLineStart_place, hcolumn, Shift.column]
  split
  · next hline =>
    change Text.lineBehind _ = 1 at hline
    rw [take_donor hm, Text.lineBehind_append, hfirst] at hline
    have hfeed : '\n' ∉ g.stretch.take m := List.count_eq_zero.1 (by omega)
    have hcol : 0 < (Cursor.place g.donor (g.front.length + m)).column := by
      change 0 < Text.columnBehind _
      rw [take_donor hm, Text.columnBehind_append_of_not_mem hfeed]
      omega
    omega
  · rfl

/-! ## moving on -/

/-- Places that are sought match if the cursors and the places do. -/
theorem locate (hk : g.Matches k k') (hl : g.Matches l l') :
    g.Matches (k.locate l) (k'.locate l') := by
  obtain ⟨m, -, rfl, rfl⟩ := hk
  obtain ⟨n, hn, rfl, rfl⟩ := hl
  exact ⟨n, hn, Cursor.locate_place _ _ _, Cursor.locate_place _ _ _⟩

/-- The next character is the same as long as it belongs to the stretch. -/
theorem next? (h : g.Matches k k') {c : Char} (hnext : k.next? = some (c, l))
    (hin : g.back.length ≤ l.left) : ∃ l', k'.next? = some (c, l') ∧ g.Matches l l' := by
  obtain ⟨m, hm, rfl, rfl⟩ := h
  have hleft := Cursor.left_next? hnext
  obtain ⟨hc, rfl⟩ := Cursor.next?_place_eq_some hnext
  have hlt : m < g.stretch.length := by
    rw [Cursor.left_eq_length, Cursor.rest_place, drop_donor, List.length_drop,
      List.length_append] at hleft
    omega
  refine ⟨_, Cursor.next?_place ?_, m + 1, hlt, rfl, rfl⟩
  rw [← hc, ← List.head?_drop, ← List.head?_drop, drop_donor, drop_host, List.head?_drop,
    List.head?_drop, List.getElem?_append_left hlt, List.getElem?_append_left hlt]

/-- Where the donor ends, so does the host. -/
theorem next?_eq_none (h : g.Matches k k') (hnext : k.next? = none) :
    g.back = [] ∧ k'.next? = none := by
  obtain ⟨xs, -, hrest, hrest'⟩ := h.exists_rest
  rw [Cursor.next?_eq_none_iff, hrest, List.append_eq_nil_iff] at hnext
  rw [Cursor.next?_eq_none_iff, hrest', hnext.1, List.nil_append]
  refine ⟨hnext.2, ?_⟩
  cases g.ends with
  | inl hends => exact hends.2
  | inr hends => simp [hnext.2] at hends

/-- Cursors match further on as long as they are in the stretch. -/
theorem advance (h : g.Matches k k') {n : Nat} (hin : g.back.length ≤ (k.advance n).left) :
    g.Matches (k.advance n) (k'.advance n) := by
  obtain ⟨m, hm, rfl, rfl⟩ := h
  rw [Cursor.advance_place, Cursor.left_place, donor, List.length_append, List.length_append] at hin
  rw [Cursor.advance_place, Cursor.advance_place, Nat.add_assoc, Nat.add_assoc]
  by_cases hn : m + n ≤ g.stretch.length
  · exact ⟨m + n, hn, rfl, rfl⟩
  · -- Beyond the stretch there is nothing, so both stay at the end.
    have hends : g.back = [] ∧ g.back' = [] := by
      cases g.ends with
      | inl hends => exact hends
      | inr hends =>
        rw [hends.2.1, List.length_singleton] at hin
        omega
    refine ⟨g.stretch.length, Nat.le_refl _, ?_, ?_⟩
    · rw [← Cursor.place_min, donor, hends.1, List.length_append, List.append_nil,
        Nat.min_eq_right (by omega)]
    · rw [← Cursor.place_min, host, hends.2, List.length_append, List.append_nil,
        Nat.min_eq_right (by omega)]

/-- The text between cursors is the same. -/
theorem textTo_eq (hk : g.Matches k k') (hl : g.Matches l l') : k'.textTo l' = k.textTo l := by
  obtain ⟨m, hm, rfl, rfl⟩ := hk
  obtain ⟨n, hn, rfl, rfl⟩ := hl
  by_cases hle : m ≤ n
  · have htake : ∀ ys : List Char, ((g.stretch ++ ys).drop m).take (n - m) =
        (g.stretch.drop m).take (n - m) := by
      intro ys
      rw [List.drop_append_of_le_length hm, List.take_append_of_le_length]
      rw [List.length_drop]
      omega
    rw [Cursor.textTo_place (by omega), Cursor.textTo_place (by omega), drop_donor, drop_host,
      Nat.add_sub_add_left, Nat.add_sub_add_left, htake, htake]
  · have hnone : ∀ (cs : List Char) (i j : Nat), j ≤ i →
        (Cursor.place cs i).textTo (Cursor.place cs j) = "" := by
      intro cs i j hij
      have hzero : byteAt cs j - byteAt cs i = 0 := Nat.sub_eq_zero_of_le (byteAt_le hij)
      unfold Cursor.textTo
      rw [Cursor.offset_place, Cursor.offset_place, hzero]
      cases (Cursor.place cs i).rest <;> simp [takeBytes]
    rw [hnone _ _ _ (by omega), hnone _ _ _ (by omega)]

/-! ## looking ahead -/

/-- What follows is the same as far as tokens look, but for the mark and the segment that stand
behind the stretch. -/
theorem ahead (h : g.Matches k k') :
    SameAhead k.rest k'.rest ∨
      k.rest = ['"'] ∧ g.back = ['"'] ∧ k'.rest.head? = some '#' := by
  obtain ⟨m, hm, rfl, rfl⟩ := h
  rw [Cursor.rest_place, Cursor.rest_place, drop_donor, drop_host, List.drop_append_of_le_length hm,
    List.drop_append_of_le_length hm]
  rcases g.ends with ⟨hback, hback'⟩ | ⟨⟨code, hcode⟩, hback, hback'⟩
  · rw [hback, hback']
    exact .inl (.refl _)
  · by_cases hlt : m < g.stretch.length
    · rw [hcode, List.length_append, List.length_singleton] at hlt
      rw [hcode, List.drop_append_of_le_length (by omega), List.append_assoc, List.append_assoc]
      exact .inl (.of_brace _ _ _)
    · rw [List.drop_of_length_le (by omega), hback]
      exact .inr ⟨rfl, rfl, hback'⟩

/-- The next character is the same, but for a quotation mark where the host has a sharp. -/
theorem head?_eq (h : g.Matches k k') :
    k'.rest.head? = k.rest.head? ∨ k.rest.head? = some '"' ∧ k'.rest.head? = some '#' := by
  rcases h.ahead with hsame | ⟨hrest, -, hrest'⟩
  · exact .inl hsame.head?_eq
  · exact .inr ⟨by rw [hrest, List.head?_cons], hrest'⟩

/-- A run of characters none of which can stand at the end of the stretch. -/
theorem runLength_eq (h : g.Matches k k') {p : Char → Bool} (hbrace : p '}' = false)
    (hquote : p '"' = false) (hsharp : p '#' = false) :
    runLength p k'.rest = runLength p k.rest := by
  rcases h.ahead with hsame | ⟨hrest, -, hrest'⟩
  · exact hsame.runLength_eq hbrace
  · obtain ⟨ds, hds⟩ := List.head?_eq_some_iff.1 hrest'
    rw [hrest, hds]
    simp [runLength, hquote, hsharp]

/-- Both cursors see a label, or neither does. -/
theorem labelColon_eq (h : g.Matches k k') : labelColon k'.rest = labelColon k.rest := by
  rcases h.ahead with hsame | ⟨hrest, -, hrest'⟩
  · exact hsame.labelColon_eq
  · obtain ⟨ds, hds⟩ := List.head?_eq_some_iff.1 hrest'
    rw [hrest, hds]
    rfl

/-- The texts go on with the same word, unless the word could stand at the end of the stretch; and
what follows it is the same. -/
theorem startsWith_eq (h : g.Matches k k') (word : String) (hbrace : '}' ∉ word.toList)
    (hfirst : word.toList.head?.any fun c => c != '"' && c != '#') :
    k'.startsWith word = k.startsWith word ∧
      (k.startsWith word = true → (k'.rest.drop word.toList.length).head? =
        (k.rest.drop word.toList.length).head?) := by
  unfold Cursor.startsWith
  rcases h.ahead with hsame | ⟨hrest, -, hrest'⟩
  · exact ⟨hsame.isPrefixOf_eq hbrace, fun hword => (hsame.drop_word hbrace hword).head?_eq⟩
  · obtain ⟨ds, hds⟩ := List.head?_eq_some_iff.1 hrest'
    cases hword : word.toList with
    | nil => simp [hword] at hfirst
    | cons c cs =>
      obtain ⟨hquote, hsharp⟩ : c ≠ '"' ∧ c ≠ '#' := by simpa [hword] using hfirst
      simp [hrest, hds, List.isPrefixOf, beq_false_of_ne hquote, beq_false_of_ne hsharp]

/-- Both cursors see the marker for data, or neither does. -/
theorem atDataMarker_eq (h : g.Matches k k') :
    Reader.atDataMarker k' = Reader.atDataMarker k := by
  obtain ⟨hword, hbehind⟩ := h.startsWith_eq "__END__" (by decide) (by decide)
  unfold Reader.atDataMarker
  rw [h.atLineStart_eq, hword]
  cases hstarts : k.startsWith "__END__" with
  | false => simp
  | true =>
    have hhead : (k'.rest.drop 7).head? = (k.rest.drop 7).head? := hbehind hstarts
    cases hd : k.rest.drop 7 <;> cases hd' : k'.rest.drop 7 <;> simp_all

/-- Both cursors see a block comment, or neither does. -/
theorem opensBlockComment_eq (h : g.Matches k k') :
    Reader.opensBlockComment k' = Reader.opensBlockComment k := by
  obtain ⟨hword, hbehind⟩ := h.startsWith_eq "=begin" (by decide) (by decide)
  unfold Reader.opensBlockComment
  rw [h.atLineStart_eq, hword]
  cases hstarts : k.startsWith "=begin" with
  | false => simp
  | true =>
    have hhead : (k'.rest.drop 6).head? = (k.rest.drop 6).head? := hbehind hstarts
    cases hd : k.rest.drop 6 <;> cases hd' : k'.rest.drop 6 <;> simp_all

/-! ## lines -/

theorem newline_not_mem_back : '\n' ∉ g.back := by
  rcases g.ends with ⟨hback, -⟩ | ⟨-, hback, -⟩ <;> simp [hback]

/-- A line that ends in the one text ends in the stretch, and in the other text too. -/
theorem takeWhile_eq_of_mem (h : g.Matches k k') (hfeed : '\n' ∈ k.rest) :
    k'.rest.takeWhile (· != '\n') = k.rest.takeWhile (· != '\n') ∧
      g.back.length + runLength (· != '\n') k.rest < k.left := by
  obtain ⟨xs, -, hrest, hrest'⟩ := h.exists_rest
  have hxs : '\n' ∈ xs := by
    rw [hrest, List.mem_append] at hfeed
    exact hfeed.resolve_right newline_not_mem_back
  obtain ⟨as, bs, rfl, has⟩ := List.eq_append_cons_of_mem hxs
  have hline : ∀ ys : List Char, (as ++ '\n' :: bs ++ ys).takeWhile (· != '\n') = as := by
    intro ys
    rw [List.append_assoc, List.takeWhile_append_of_pos]
    · simp
    · exact fun c hc => by simpa using ne_of_mem_of_not_mem hc has
  rw [Cursor.left_eq_length, runLength, hrest, hrest', hline, hline]
  refine ⟨rfl, ?_⟩
  simp only [List.length_append, List.length_cons]
  omega

/-- Without a line end the line goes on to the end of the text. -/
theorem rest_eq_of_nil (h : g.Matches k k') (hback : g.back = []) : k'.rest = k.rest := by
  obtain ⟨xs, -, hrest, hrest'⟩ := h.exists_rest
  rcases g.ends with ⟨-, hback'⟩ | ⟨-, hquote, -⟩
  · rw [hrest, hrest', hback, hback']
  · rw [hback] at hquote
    cases hquote

/-- The line goes on equally far as long as it ends in the stretch. -/
theorem runLength_line_eq (h : g.Matches k k')
    (hin : g.back.length ≤ (k.advance (runLength (· != '\n') k.rest)).left) :
    runLength (· != '\n') k'.rest = runLength (· != '\n') k.rest := by
  by_cases hfeed : '\n' ∈ k.rest
  · rw [runLength, runLength, (h.takeWhile_eq_of_mem hfeed).1]
  · rw [Cursor.left_advance, Cursor.left_eq_length, runLength, takeWhile_line_eq_self_iff.2 hfeed,
      Nat.sub_self] at hin
    rw [h.rest_eq_of_nil (List.length_eq_zero_iff.1 (Nat.le_zero.1 hin))]

/-- A line that is not the last one, and the place behind it. -/
theorem nextLine (h : g.Matches k k') {c : Char}
    (hnext : (k.skipWhile (· != '\n')).next? = some (c, l)) :
    k'.rest.takeWhile (· != '\n') = k.rest.takeWhile (· != '\n') ∧
      ∃ l', (k'.skipWhile (· != '\n')).next? = some (c, l') ∧ g.Matches l l' := by
  have hfeed : '\n' ∈ k.rest := by
    by_contra hno
    rw [Cursor.next?_skipWhile_eq_none_iff.2 hno] at hnext
    cases hnext
  obtain ⟨hline, hlt⟩ := h.takeWhile_eq_of_mem hfeed
  have hleft := Cursor.left_next? hnext
  unfold Cursor.skipWhile at hnext hleft ⊢
  rw [Cursor.left_advance] at hleft
  unfold runLength at hlt
  rw [hline]
  refine ⟨rfl, (h.advance ?_).next? hnext ?_⟩
  · rw [Cursor.left_advance]
    omega
  · omega

/-- There is no next line in the host where the donor has none. -/
theorem nextLine_eq_none (h : g.Matches k k') (hback : g.back = [])
    (hnext : (k.skipWhile (· != '\n')).next? = none) :
    (k'.skipWhile (· != '\n')).next? = none := by
  rw [Cursor.next?_skipWhile_eq_none_iff] at hnext ⊢
  rwa [h.rest_eq_of_nil hback]

end Matches

end Graft

/-! ## the bodies of heredocs -/

namespace Marker

/-- What a class does not hold is never dropped with the characters of that class. -/
theorem mem_dropWhile {p : Char → Bool} {c : Char} {cs : List Char} (hc : c ∈ cs)
    (hp : p c = false) : c ∈ cs.dropWhile p := by
  rw [← List.takeWhile_append_dropWhile (p := p) (l := cs), List.mem_append] at hc
  exact hc.resolve_left fun htake => absurd (List.mem_takeWhile_imp htake) (by simp [hp])

/-- A character that is not dropped stays. -/
theorem mem_dropEnd {p : Char → Bool} {c : Char} {cs : List Char} (hc : c ∈ cs)
    (hp : p c = false) : c ∈ Text.dropEnd p cs :=
  List.mem_reverse.2 (mem_dropWhile (List.mem_reverse.2 hc) hp)

/-- A terminator is made of the characters of names. -/
theorem isNameChar_of_mem_terminator {m : Marker} {cs : List Char} (h : ofChars? cs = some m)
    {c : Char} (hc : c ∈ m.terminator) : isNameChar c = true := by
  unfold ofChars? at h
  split at h
  · simp only [named?] at h
    split at h
    · cases h
    · next first rest hname =>
      split at h
      · obtain rfl := Option.some.inj h
        exact List.mem_takeWhile_imp hc
      · cases h
  · cases h

/-- A line that holds a quotation mark ends no body. -/
theorem closedBy_eq_false {m : Marker} (hm : ∀ c ∈ m.terminator, isNameChar c = true)
    {line : List Char} (hquote : '"' ∈ line) : m.closedBy line = false := by
  have hkept := mem_dropEnd (p := (· == '\r')) hquote (by decide)
  by_contra hclosed
  rw [Bool.not_eq_false, closedBy] at hclosed
  split at hclosed
  · rw [beq_iff_eq] at hclosed
    have hmem : '"' ∈ Text.trim (Text.dropEnd (· == '\r') line) :=
      mem_dropEnd (mem_dropWhile hkept (by decide)) (by decide)
    exact absurd (hm _ (hclosed ▸ hmem)) (by decide)
  · rw [beq_iff_eq] at hclosed
    exact absurd (hm _ (hclosed ▸ hkept)) (by decide)

/-- A body ends at the line that closes it, or in the lines behind. -/
theorem bodyEnd?_eq (m : Marker) (k : Cursor) :
    m.bodyEnd? k =
      match (k.skipWhile (· != '\n')).next? with
      | none =>
        if m.closedBy (k.rest.takeWhile (· != '\n')) then some (k, k.skipWhile (· != '\n'))
        else none
      | some (_, next) =>
        if m.closedBy (k.rest.takeWhile (· != '\n')) then some (k, next)
        else m.bodyEnd? next := by
  rw [bodyEnd?]
  simp only [Cursor.skipWhile]
  split
  · next hb => simp [hb]
  · next hb => simp [hb]

end Marker

namespace Graft

variable {g : Graft}

/-- The last line of the text, which the quotation mark ends, closes no body. -/
theorem Matches.back_eq_nil_of_closedBy {m : Marker}
    (hm : ∀ c ∈ m.terminator, isNameChar c = true) {k k' : Cursor} (h : g.Matches k k')
    (hnext : (k.skipWhile (· != '\n')).next? = none)
    (hclosed : m.closedBy (k.rest.takeWhile (· != '\n')) = true) : g.back = [] := by
  obtain ⟨xs, -, hrest, -⟩ := h.exists_rest
  rw [takeWhile_line_eq_self_iff.2 (Cursor.next?_skipWhile_eq_none_iff.1 hnext)] at hclosed
  rcases g.ends with ⟨hback, -⟩ | ⟨-, hback, -⟩
  · exact hback
  · have hquote : '"' ∈ k.rest := by simp [hrest, hback]
    rw [Marker.closedBy_eq_false hm hquote] at hclosed
    cases hclosed

/-- A body that ends in the stretch does so in both sources. -/
theorem Matches.bodyEnd? {m : Marker} (hm : ∀ c ∈ m.terminator, isNameChar c = true)
    {k k' stop resume : Cursor} (h : g.Matches k k') (hbody : m.bodyEnd? k = some (stop, resume)) :
    ∃ stop' resume', m.bodyEnd? k' = some (stop', resume') ∧ g.Matches stop stop' ∧
      g.Matches resume resume' := by
  induction hn : k.left using Nat.strongRecOn generalizing k k' with
  | ind n ih =>
    rw [Marker.bodyEnd?_eq] at hbody ⊢
    cases hnext : (k.skipWhile (· != '\n')).next? with
    | none =>
      simp only [hnext] at hbody
      split at hbody
      · next hclosed =>
        have hback := h.back_eq_nil_of_closedBy hm hnext hclosed
        have hrest := h.rest_eq_of_nil hback
        have hend : g.back.length ≤ (k.skipWhile (· != '\n')).left := by
          rw [hback]
          exact Nat.zero_le _
        obtain ⟨rfl, rfl⟩ := Prod.mk.inj (Option.some.inj hbody)
        simp only [h.nextLine_eq_none hback hnext, hrest, hclosed, if_true]
        refine ⟨_, _, rfl, h, ?_⟩
        rw [Cursor.skipWhile, Cursor.skipWhile, hrest]
        exact h.advance hend
      · cases hbody
    | some next =>
      obtain ⟨c, next⟩ := next
      obtain ⟨hline, next', hnext', hmatch⟩ := h.nextLine hnext
      have hleft := Cursor.left_next? hnext
      have hle : (k.skipWhile (· != '\n')).left ≤ k.left := Cursor.left_advance_le k _
      simp only [hnext, hnext', hline] at hbody ⊢
      split
      · next hclosed =>
        simp only [hclosed, if_true] at hbody
        obtain ⟨rfl, rfl⟩ := Prod.mk.inj (Option.some.inj hbody)
        exact ⟨_, _, rfl, h, hmatch⟩
      · next hclosed =>
        simp only [hclosed] at hbody
        exact ih _ (by omega) hmatch hbody rfl

/-- A body that does not end in the donor does not end in the host. -/
theorem Matches.bodyEnd?_eq_none {m : Marker} {k k' : Cursor} (h : g.Matches k k')
    (hback : g.back = []) (hbody : m.bodyEnd? k = none) : m.bodyEnd? k' = none := by
  induction hn : k.left using Nat.strongRecOn generalizing k k' with
  | ind n ih =>
    rw [Marker.bodyEnd?_eq] at hbody ⊢
    rw [h.rest_eq_of_nil hback]
    cases hnext : (k.skipWhile (· != '\n')).next? with
    | none =>
      simp only [hnext] at hbody
      simp only [h.nextLine_eq_none hback hnext]
      split at hbody
      · cases hbody
      · next hclosed => exact if_neg hclosed
    | some next =>
      obtain ⟨c, next⟩ := next
      obtain ⟨-, next', hnext', hmatch⟩ := h.nextLine hnext
      have hleft := Cursor.left_next? hnext
      have hle : (k.skipWhile (· != '\n')).left ≤ k.left := Cursor.left_advance_le k _
      simp only [hnext] at hbody
      simp only [hnext']
      split at hbody
      · cases hbody
      · next hclosed =>
        rw [if_neg hclosed]
        exact ih _ (by omega) hmatch hbody rfl

end Graft

end ConnectorAudit
