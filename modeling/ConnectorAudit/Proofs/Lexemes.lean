import ConnectorAudit.Proofs.Readers
import ConnectorAudit.Token.Lexeme

/-!
# Reading a lexeme

`Reads source h i t s` is what every way to read a token has to show: from a
reader at the place `i` it leads to the reader `s`, and `t` is a placed token that
reaches from the one place to the other.  The heredocs that `t` announces count
as announced behind it.

The lexemes of one line show it by `Reader.At.take`: some characters, none of
them a line feed.
-/

namespace ConnectorAudit

/-- The token reaches from the place `i` to the reader behind it. -/
structure Reads (source : String) (h : Heredocs) (i : Nat) (t : Token) (s : Reader) : Prop where
  placed : t.Placed source
  offset_eq : t.offset = byteAt source.toList i
  behind : ∃ j, i < j ∧ t.stop = byteAt source.toList j ∧ s.At source (h.addAll source [t]) j

/-- A marker begins with an angle bracket. -/
theorem Marker.ofChars?_eq_none {cs : List Char} (h : cs.head? ≠ some '<') :
    Marker.ofChars? cs = none := by
  unfold Marker.ofChars?
  split
  · simp at h
  · rfl

namespace Reads

variable {source : String} {h : Heredocs} {i j : Nat} {r s : Reader}

/-- Only the cursor and the jump of the reader behind matter. -/
theorem congr {t : Token} {u : Reader} (hs : Reads source h i t s) (hcursor : u.cursor = s.cursor)
    (hjump : u.jump = s.jump) : Reads source h i t u := by
  obtain ⟨j, hij, hstop, hat⟩ := hs.behind
  exact ⟨hs.placed, hs.offset_eq, j, hij, hstop, hat.congr hcursor hjump⟩

/-- A token that is returned is the one that was read. -/
theorem of_ok {t : Token} {p : Token × Reader} (hp : Reads source h i p.1 p.2)
    (hok : (Except.ok p : Except Failure (Token × Reader)) = .ok (t, s)) :
    Reads source h i t s := by
  obtain rfl := Except.ok.inj hok
  exact hp

/-- A token that is read follows those that were laid before it. -/
theorem laid_append {t : Token} {ts : List Token} {lo p : Nat}
    (ht : Reads source (h.addAll source ts) p t s)
    (hlaid : Laid source lo (byteAt source.toList i) ts) (hlo : lo ≤ byteAt source.toList i)
    (hip : i ≤ p) :
    ∃ j, p < j ∧ t.stop = byteAt source.toList j ∧ s.At source (h.addAll source (ts ++ [t])) j ∧
      Laid source lo (byteAt source.toList j) (ts ++ [t]) := by
  obtain ⟨j, hpj, hstop, hs⟩ := ht.behind
  have hle : byteAt source.toList i ≤ byteAt source.toList p := byteAt_le hip
  have hle' : byteAt source.toList p ≤ byteAt source.toList j := byteAt_le (Nat.le_of_lt hpj)
  have ht' : Laid source (byteAt source.toList p) (byteAt source.toList j) [t] :=
    .singleton ht.placed (Nat.le_of_eq ht.offset_eq.symm) (Nat.le_of_eq hstop)
  refine ⟨j, hpj, hstop, ?_, ?_⟩
  · rw [Heredocs.addAll_append]
    exact hs
  · exact (hlaid.mono (Nat.le_refl _) hle).append ht' (Nat.le_trans hlo hle) hle'

/-- A token from a reader to one further on, with the tokens below it strictly in between. -/
theorem between {kind : Token.Kind} {gap : Gap} {value : Option String} {nested : List Token}
    {hi : Nat} (hr : r.At source h i) (hs : s.At source (h.addAll source nested) j) (hij : i < j)
    (hnested : Laid source (byteAt source.toList i + 1) hi nested)
    (hhi : hi < byteAt source.toList j)
    (hkind : kind ≠ .string ∨ source.toList[i]? ≠ some '<') :
    Reads source h i (.between kind gap r.cursor s.cursor value nested) s := by
  have hle : i ≤ j := Nat.le_of_lt hij
  have hmarker : (Token.between kind gap r.cursor s.cursor value nested).marker? = none := by
    rw [hr.cursor_eq, hs.cursor_eq]
    unfold Token.marker?
    cases hkind with
    | inl hkind => exact if_neg hkind
    | inr hhead =>
      split
      · rw [Token.text_between hle, String.toList_ofList]
        refine Marker.ofChars?_eq_none ?_
        rw [List.head?_take, if_neg (by omega), List.head?_drop]
        exact hhead
      · rfl
  refine ⟨?_, ?_, j, hij, ?_, ?_⟩
  · rw [hr.cursor_eq, hs.cursor_eq]
    exact Token.placed_between hij hs.le_length hnested hhi
  · rw [hr.cursor_eq]
    rfl
  · rw [hr.cursor_eq, hs.cursor_eq, Token.stop_between hle]
  · rw [Heredocs.addAll_singleton h hmarker]
    exact hs

/-- A token with none below it. -/
theorem plain {kind : Token.Kind} {gap : Gap} {value : Option String} (hr : r.At source h i)
    (hs : s.At source h j) (hij : i < j) (hkind : kind ≠ .string) :
    Reads source h i (.between kind gap r.cursor s.cursor value) s := by
  have hlt : byteAt source.toList i < byteAt source.toList j := byteAt_lt hij hs.le_length
  exact between hr hs hij .nil hlt (.inl hkind)

end Reads

/-! ## how far a lexeme reaches -/

/-- The first `n` characters end no line. -/
def Inline (n : Nat) (cs : List Char) : Prop := '\n' ∉ cs.take n

namespace Inline

theorem zero (cs : List Char) : Inline 0 cs := by simp [Inline]

/-- A character that is no line feed lengthens a stretch of one line. -/
theorem succ_cons {c : Char} {n : Nat} {cs : List Char} (hc : c ≠ '\n') (h : Inline n cs) :
    Inline (n + 1) (c :: cs) := by
  unfold Inline at *
  rw [List.take_succ_cons, List.mem_cons, not_or]
  exact ⟨hc.symm, h⟩

/-- Two stretches of one line are one. -/
theorem add {m n : Nat} {cs : List Char} (hm : Inline m cs) (hn : Inline n (cs.drop m)) :
    Inline (m + n) cs := by
  unfold Inline at *
  rw [List.take_add, List.mem_append, not_or]
  exact ⟨hm, hn⟩

/-- A run of characters that are no line feeds stays on its line. -/
theorem runLength {p : Char → Bool} (hp : p '\n' = false) (cs : List Char) :
    Inline (runLength p cs) cs := by
  unfold Inline ConnectorAudit.runLength
  rw [← List.prefix_iff_eq_take.1 (List.takeWhile_prefix p)]
  intro hmem
  have hall := List.all_eq_true.1 List.all_takeWhile _ hmem
  rw [hp] at hall
  cases hall

/-- A word that begins a text and holds no line feed. -/
theorem of_begins {word : String} {cs : List Char} (hbegins : word.toList <+: cs)
    (hword : '\n' ∉ word.toList) : Inline word.length cs := by
  unfold Inline
  rw [← String.length_toList, ← List.prefix_iff_eq_take.1 hbegins]
  exact hword

/-- A word stays on its line. -/
theorem wordLength (cs : List Char) : Inline (wordLength cs) cs := by
  have hname : Inline (ConnectorAudit.runLength isNameChar cs) cs := runLength (by decide) cs
  unfold ConnectorAudit.wordLength
  simp only
  split
  · exact hname
  · exact hname
  · next hmore => exact hname.add (hmore ▸ succ_cons (by decide) (zero _))
  · next hmore => exact hname.add (hmore ▸ succ_cons (by decide) (zero _))
  · exact hname

/-- The colon of a label stays on its line. -/
theorem of_labelColon {cs : List Char} (h : labelColon cs = true) : Inline 1 cs := by
  unfold labelColon at h
  split at h
  · cases h
  · exact .succ_cons (by decide) (.zero _)
  · cases h

/-- A fraction stays on its line. -/
theorem fractionLength (cs : List Char) : Inline (fractionLength cs) cs := by
  unfold ConnectorAudit.fractionLength
  split
  · split
    · rw [Nat.add_comm]
      exact succ_cons (by decide) (runLength (by decide) _)
    · exact zero _
  · exact zero _

theorem ne_newline_of_isDigit {c : Char} (h : c.isDigit = true) : c ≠ '\n' := by
  rintro rfl
  exact absurd h (by decide)

/-- An exponent stays on its line. -/
theorem exponentLength (cs : List Char) : Inline (exponentLength cs) cs := by
  unfold ConnectorAudit.exponentLength
  split
  · next e cs =>
    split
    · next hmark =>
      have he : e ≠ '\n' := by
        rintro rfl
        revert hmark
        decide
      split
      · next s d cs =>
        split
        · next hsign =>
          have hs : s ≠ '\n' := by
            rintro rfl
            revert hsign
            decide
          split
          · rw [Nat.add_comm]
            exact succ_cons he (succ_cons hs (runLength (by decide) _))
          · exact zero _
        · split
          · rw [Nat.add_comm]
            exact succ_cons he (runLength (by decide) _)
          · exact zero _
      · split
        · next hd => exact succ_cons he (succ_cons (ne_newline_of_isDigit hd) (zero _))
        · exact zero _
      · exact zero _
    · exact zero _
  · exact zero _

/-- A decimal number stays on its line. -/
theorem decimalLength (cs : List Char) : Inline (decimalLength cs) cs := by
  unfold ConnectorAudit.decimalLength
  refine ((runLength (by decide) cs).add ?_).add ?_
  · exact fractionLength _
  · exact exponentLength _

/-- A number stays on its line. -/
theorem numeralLength (cs : List Char) : Inline (numeralLength cs) cs := by
  unfold ConnectorAudit.numeralLength
  split
  · next b cs =>
    split
    · next hbase =>
      have hb : b ≠ '\n' := by
        rintro rfl
        revert hbase
        decide
      rw [Nat.add_comm]
      exact succ_cons (by decide) (succ_cons hb (runLength (by decide) _))
    · exact decimalLength _
  · exact decimalLength _

end Inline

theorem runLength_pos {p : Char → Bool} {c : Char} (hc : p c = true) (cs : List Char) :
    0 < runLength p (c :: cs) := by
  simp [runLength, hc]

/-- A word is not empty. -/
theorem wordLength_pos {c : Char} (hc : isNameStart c = true) (cs : List Char) :
    0 < wordLength (c :: cs) := by
  have hchar : isNameChar c = true := by
    simp only [isNameStart, isNameChar, Char.isAlphanum, Bool.or_eq_true] at hc ⊢
    tauto
  have hpos := runLength_pos hchar cs
  unfold wordLength
  simp only
  split <;> omega

/-- A number is not empty. -/
theorem numeralLength_pos {c : Char} (hc : c.isDigit = true) (cs : List Char) :
    0 < numeralLength (c :: cs) := by
  have hpos : 0 < decimalLength (c :: cs) := by
    have hrun := runLength_pos (show isDigitOrBar c = true by simp [isDigitOrBar, hc]) cs
    unfold decimalLength
    simp only
    omega
  unfold numeralLength
  split
  · split
    · omega
    · next heq _ => exact heq ▸ hpos
  · exact hpos

/-! ## reading lexemes -/

/-- The word that is found is one of the words, and stands in front. -/
theorem firstOf_eq_some {words : List String} {cs : List Char} {word : String}
    (h : firstOf words cs = some word) : word ∈ words ∧ word.toList <+: cs := by
  unfold firstOf at h
  have hbegins := List.find?_some h
  exact ⟨List.mem_of_find?_eq_some h, List.isPrefixOf_iff_prefix.1 hbegins⟩

namespace Reader

namespace At

variable {source : String} {h : Heredocs} {i : Nat} {r s : Reader}

/-- A reader that has something left stands before the end. -/
theorem lt_length (hr : r.At source h i) (hne : r.rest ≠ []) : i < source.toList.length := by
  rw [hr.rest_eq] at hne
  by_contra hnot
  exact hne (List.drop_of_length_le (Nat.le_of_not_lt hnot))

/-- A stretch of characters within a line goes on by as many places, and not beyond the end. -/
theorem advance_pos (hr : r.At source h i) (hne : r.rest ≠ []) {n : Nat} (hn : 0 < n)
    (hline : Inline n r.rest) : ∃ j, i < j ∧ (r.advance n).At source h j := by
  have hlt := hr.lt_length hne
  exact ⟨_, by omega, hr.advance hline⟩

/-- Flags, signs and the like, of which there may be none. -/
theorem advance_le (hr : r.At source h i) {n : Nat} (hline : Inline n r.rest) :
    ∃ j, i ≤ j ∧ (r.advance n).At source h j := by
  have hle := hr.le_length
  exact ⟨_, by omega, hr.advance hline⟩

/-- Taking some characters of a line reads a token. -/
theorem take (hr : r.At source h i) (hne : r.rest ≠ []) (kind : Token.Kind) (gap : Gap) {n : Nat}
    (hn : 0 < n) (hline : Inline n r.rest) (value : Option String) (hkind : kind ≠ .string) :
    Reads source h i (r.take kind gap n value).1 (r.take kind gap n value).2 := by
  obtain ⟨j, hij, hs⟩ := hr.advance_pos hne hn hline
  exact .plain hr hs hij hkind

/-- A stray character is read as a token. -/
theorem stray (hr : r.At source h i) (hne : r.rest ≠ []) (gap : Gap) :
    Reads source h i (r.stray gap).1 (r.stray gap).2 := by
  have hlt := hr.lt_length hne
  obtain ⟨s, hb⟩ := hr.exists_bump (List.getElem?_eq_getElem hlt)
  obtain ⟨-, -, j, hij, hs, -⟩ := hr.bump hb
  have hstray : r.stray gap = (.between .other gap r.cursor s.cursor, s) := by
    unfold Reader.stray
    rw [hb]
  rw [hstray]
  exact .plain hr hs hij (by decide)

/-- A mark is not empty and stays on its line. -/
theorem punctuation_inline : ∀ word ∈ ConnectorAudit.punctuation,
    0 < word.length ∧ '\n' ∉ word.toList := by
  decide

theorem operatorSymbols_inline : ∀ word ∈ operatorSymbols, '\n' ∉ word.toList := by
  decide

/-- A mark is read as a token. -/
theorem punctuation (hr : r.At source h i) (hne : r.rest ≠ []) (gap : Gap) :
    Reads source h i (r.punctuation gap).1 (r.punctuation gap).2 := by
  unfold Reader.punctuation
  split
  · next word hfirst =>
    obtain ⟨hmem, hbegins⟩ := firstOf_eq_some hfirst
    obtain ⟨hpos, hline⟩ := punctuation_inline word hmem
    exact hr.take hne _ gap hpos (.of_begins hbegins hline) _ (by decide)
  · exact hr.stray hne gap

/-- A comment is read as a token. -/
theorem comment (hr : r.At source h i) {cs : List Char} (hrest : r.rest = '#' :: cs) (gap : Gap) :
    Reads source h i (r.comment gap).1 (r.comment gap).2 := by
  have hpos : 0 < runLength (· != '\n') r.rest := by
    rw [hrest]
    exact runLength_pos (by decide) cs
  exact hr.take (by simp [hrest]) _ gap hpos (.runLength (by decide) _) _ (by decide)

/-- A number is read as a token. -/
theorem numeral (hr : r.At source h i) {c : Char} {cs : List Char} (hrest : r.rest = c :: cs)
    (hc : c.isDigit = true) (gap : Gap) :
    Reads source h i (r.numeral gap).1 (r.numeral gap).2 := by
  have hpos : 0 < numeralLength r.rest := by
    rw [hrest]
    exact numeralLength_pos hc cs
  exact hr.take (by simp [hrest]) _ gap hpos (.numeralLength _) _ (by decide)

/-- A name behind a sigil is read as a token. -/
theorem sigilName (hr : r.At source h i) {c : Char} {cs : List Char} (hrest : r.rest = c :: cs)
    (hc : c = '@' ∨ c = '$') (gap : Gap) :
    Reads source h i (r.sigilName gap).1 (r.sigilName gap).2 := by
  have hne : r.rest ≠ [] := by simp [hrest]
  have hfeed : c ≠ '\n' := by
    rintro rfl
    revert hc
    decide
  have hsigil : ∃ j, i < j ∧ (if r.cursor.startsWith "@@" then r.advance 2 else r.advance 1).At
      source h j := by
    split
    · next hstarts =>
      exact hr.advance_pos hne (by decide)
        (.of_begins (List.isPrefixOf_iff_prefix.1 hstarts) (by decide))
    · exact hr.advance_pos hne (by decide) (hrest ▸ .succ_cons hfeed (.zero _))
  obtain ⟨j, hij, hname⟩ := hsigil
  unfold Reader.sigilName
  simp only
  generalize (if r.cursor.startsWith "@@" then r.advance 2 else r.advance 1) = name at hname ⊢
  split
  · split
    · exact .plain hr hname hij (by decide)
    · next d s hb =>
      obtain ⟨-, -, k, hjk, hs, -⟩ := hname.bump hb
      exact .plain hr hs (Nat.lt_trans hij hjk) (by decide)
  · obtain ⟨k, hjk, hs⟩ := hname.advance_le (.runLength (p := isNameChar) (by decide) _)
    exact .plain hr hs (Nat.lt_of_lt_of_le hij hjk) (by decide)

/-- A word is no string. -/
theorem wordKind_ne_string (r : Reader) (text : String) : (r.wordKind text).1 ≠ .string := by
  unfold wordKind
  simp only
  repeat' split
  all_goals simp

/-- A word is read as a token. -/
theorem word (hr : r.At source h i) {c : Char} {cs : List Char} (hrest : r.rest = c :: cs)
    (hc : isNameStart c = true) (gap : Gap) :
    Reads source h i (r.word gap).1 (r.word gap).2 := by
  have hne : r.rest ≠ [] := by simp [hrest]
  have hpos : 0 < wordLength r.rest := by
    rw [hrest]
    exact wordLength_pos hc cs
  unfold Reader.word
  simp only
  split
  · next hlabel =>
    simp only [Bool.and_eq_true] at hlabel
    have hline : Inline 1 (r.rest.drop (wordLength r.rest)) := .of_labelColon hlabel.1
    exact hr.take hne _ gap (Nat.succ_pos _) (.add (.wordLength _) hline) _ (by decide)
  · exact (hr.take hne _ gap hpos (.wordLength _) none (wordKind_ne_string r _)).congr rfl rfl

end At

end Reader

end ConnectorAudit
