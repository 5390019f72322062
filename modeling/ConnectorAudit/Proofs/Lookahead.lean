import Mathlib.Data.List.TakeWhile
import ConnectorAudit.Token.Scan

/-!
# Looking ahead

No token looks beyond a closing brace to find out where it ends, unless it is a
literal that the brace is part of.  So two texts that agree up to and including a
brace let the same follow: the same run of characters, the same word, numeral or
punctuation, the same marker of a heredoc and head of a percent literal.
-/

namespace ConnectorAudit

/-- Two texts agree, or do so up to and including a closing brace. -/
inductive SameAhead : List Char → List Char → Prop
  | nil : SameAhead [] []
  | brace (cs ds : List Char) : SameAhead ('}' :: cs) ('}' :: ds)
  | cons (c : Char) {cs ds : List Char} (h : SameAhead cs ds) : SameAhead (c :: cs) (c :: ds)

namespace SameAhead

variable {cs ds : List Char}

theorem refl : ∀ cs : List Char, SameAhead cs cs
  | [] => nil
  | c :: cs => cons c (refl cs)

/-- What stands before a closing brace is the same ahead of both. -/
theorem of_brace (xs cs ds : List Char) : SameAhead (xs ++ '}' :: cs) (xs ++ '}' :: ds) := by
  induction xs with
  | nil => exact brace cs ds
  | cons x xs ih => exact cons x ih

theorem head?_eq (h : SameAhead cs ds) : ds.head? = cs.head? := by
  cases h <;> rfl

/-- Both are at their end, or both begin with the same character. -/
theorem eq_nil_or_eq_cons (h : SameAhead cs ds) :
    cs = [] ∧ ds = [] ∨ ∃ c xs ys, cs = c :: xs ∧ ds = c :: ys := by
  cases h with
  | nil => exact .inl ⟨rfl, rfl⟩
  | brace xs ys => exact .inr ⟨_, xs, ys, rfl, rfl⟩
  | cons c _ => exact .inr ⟨c, _, _, rfl, rfl⟩

/-- Behind anything but a closing brace the texts are still the same ahead. -/
theorem tail {c : Char} (h : SameAhead (c :: cs) ds) (hc : c ≠ '}') :
    ∃ ds', ds = c :: ds' ∧ SameAhead cs ds' := by
  cases h with
  | brace => exact absurd rfl hc
  | cons _ h => exact ⟨_, rfl, h⟩

/-! ## runs of characters -/

/-- A run of characters other than a closing brace is the same. -/
theorem takeWhile_eq {p : Char → Bool} (hp : p '}' = false) (h : SameAhead cs ds) :
    ds.takeWhile p = cs.takeWhile p := by
  induction h with
  | nil => rfl
  | brace => simp [hp]
  | cons c _ ih => simp [List.takeWhile_cons, ih]

/-- A run of characters other than a closing brace is equally long. -/
theorem runLength_eq {p : Char → Bool} (hp : p '}' = false) (h : SameAhead cs ds) :
    runLength p ds = runLength p cs := by
  rw [runLength, runLength, h.takeWhile_eq hp]

/-- Behind a run without braces the texts agree as well. -/
theorem drop_runLength {p : Char → Bool} (hp : p '}' = false) (h : SameAhead cs ds) :
    SameAhead (cs.drop (runLength p cs)) (ds.drop (runLength p cs)) := by
  unfold runLength
  induction h with
  | nil => exact nil
  | brace cs ds => simpa [hp] using brace cs ds
  | cons c h ih =>
    rw [List.takeWhile_cons]
    split
    · exact ih
    · exact cons c h

/-- A word without a closing brace stands in front of both or of neither. -/
theorem isPrefixOf_eq {word : List Char} (hword : '}' ∉ word) (h : SameAhead cs ds) :
    word.isPrefixOf ds = word.isPrefixOf cs := by
  induction word generalizing cs ds with
  | nil => simp
  | cons w word ih =>
    obtain ⟨hw, hword⟩ : '}' ≠ w ∧ '}' ∉ word := by simpa using hword
    cases h with
    | nil => rfl
    | brace => simp [List.isPrefixOf, beq_false_of_ne (Ne.symm hw)]
    | cons c h => simp [List.isPrefixOf, ih hword h]

/-- Behind a word without braces the texts agree as well. -/
theorem drop_word {word : List Char} (hword : '}' ∉ word) (h : SameAhead cs ds)
    (hbegins : word.isPrefixOf cs = true) :
    SameAhead (cs.drop word.length) (ds.drop word.length) := by
  induction word generalizing cs ds with
  | nil => exact h
  | cons w word ih =>
    obtain ⟨hw, hword⟩ : '}' ≠ w ∧ '}' ∉ word := by simpa using hword
    cases h with
    | nil => simp at hbegins
    | brace => simp [List.isPrefixOf, Ne.symm hw] at hbegins
    | cons c h => exact ih hword h (by simp_all [List.isPrefixOf])

/-- The same one of some words stands in front of both. -/
theorem firstOf_eq {words : List String} (hwords : ∀ word ∈ words, '}' ∉ word.toList)
    (h : SameAhead cs ds) : firstOf words ds = firstOf words cs := by
  unfold firstOf
  induction words with
  | nil => rfl
  | cons word words ih =>
    obtain ⟨hword, hwords⟩ := List.forall_mem_cons.1 hwords
    rw [List.find?_cons, List.find?_cons, h.isPrefixOf_eq hword, ih hwords]

/-- The same mark stands in front of both. -/
theorem punctuation_eq (h : SameAhead cs ds) :
    firstOf ConnectorAudit.punctuation ds = firstOf ConnectorAudit.punctuation cs :=
  h.firstOf_eq (by decide)

/-- The same operator stands in front of both. -/
theorem operatorSymbols_eq (h : SameAhead cs ds) :
    firstOf operatorSymbols ds = firstOf operatorSymbols cs :=
  h.firstOf_eq (by decide)

/-! ## words and numerals -/

/-- A word is equally long in both. -/
theorem wordLength_eq (h : SameAhead cs ds) : wordLength ds = wordLength cs := by
  have hdrop := h.drop_runLength (p := isNameChar) (by decide)
  unfold wordLength
  simp only [h.runLength_eq (p := isNameChar) (by decide)]
  generalize cs.drop (runLength isNameChar cs) = cs' at hdrop ⊢
  generalize ds.drop (runLength isNameChar cs) = ds' at hdrop ⊢
  cases hdrop with
  | nil => rfl
  | brace => rfl
  | cons c hdrop =>
    cases hdrop with
    | nil => rfl
    | brace => by_cases hq : c = '?' <;> by_cases hx : c = '!' <;> simp [hq, hx]
    | cons d =>
      by_cases hq : c = '?' <;> by_cases hx : c = '!' <;> by_cases hd : d = '=' <;>
        simp [hq, hx, hd]

/-- Up to a brace the texts are the same, and from there on they agree. -/
theorem take_eq {n : Nat} (h : SameAhead cs ds) (hn : '}' ∉ cs.take n) :
    ds.take n = cs.take n ∧ SameAhead (cs.drop n) (ds.drop n) := by
  induction n generalizing cs ds with
  | zero => exact ⟨rfl, h⟩
  | succ n ih =>
    cases h with
    | nil => exact ⟨rfl, nil⟩
    | brace => simp at hn
    | cons c h =>
      rw [List.take_succ_cons, List.mem_cons, not_or] at hn
      obtain ⟨htake, hdrop⟩ := ih h hn.2
      exact ⟨by rw [List.take_succ_cons, List.take_succ_cons, htake], hdrop⟩

/-- A word holds no closing brace. -/
theorem brace_not_mem_word (cs : List Char) : '}' ∉ cs.take (wordLength cs) := by
  have hname : '}' ∉ cs.take (runLength isNameChar cs) := by
    rw [runLength, List.prefix_iff_eq_take.1 (List.takeWhile_prefix isNameChar) |>.symm]
    exact fun hmem => absurd (List.mem_takeWhile_imp hmem) (by decide)
  have hmark : ∀ {c : Char} {ds : List Char}, cs.drop (runLength isNameChar cs) = c :: ds →
      c ≠ '}' → '}' ∉ cs.take (runLength isNameChar cs + 1) := by
    intro c ds hdrop hc
    rw [List.take_add, hdrop, List.mem_append]
    simpa [hname] using hc.symm
  unfold wordLength
  simp only
  split
  · exact hname
  · exact hname
  · next hdrop => exact hmark hdrop (by decide)
  · next hdrop => exact hmark hdrop (by decide)
  · exact hname

/-- A label's colon stands in front of both or of neither. -/
theorem labelColon_eq (h : SameAhead cs ds) : labelColon ds = labelColon cs := by
  cases h with
  | nil => rfl
  | brace => rfl
  | cons c h =>
    cases h with
    | nil => rfl
    | brace => by_cases hc : c = ':' <;> simp [labelColon, hc]
    | cons d => by_cases hc : c = ':' <;> by_cases hd : d = ':' <;> simp [labelColon, hc, hd]

/-- A fraction is equally long in both. -/
theorem fractionLength_eq (h : SameAhead cs ds) : fractionLength ds = fractionLength cs := by
  cases h with
  | nil => rfl
  | brace => rfl
  | cons c h =>
    by_cases hc : c = '.'
    · subst hc
      have hrun := h.runLength_eq (p := isDigitOrBar) (by decide)
      cases h with
      | nil => rfl
      | brace => rfl
      | cons d => simp only [fractionLength, hrun]
    · simp [fractionLength, hc]

/-- An exponent is equally long in both. -/
theorem exponentLength_eq (h : SameAhead cs ds) : exponentLength ds = exponentLength cs := by
  cases h with
  | nil => rfl
  | brace => rfl
  | cons c h =>
    simp only [exponentLength]
    cases h with
    | nil => rfl
    | brace cs ds => cases cs <;> cases ds <;> rfl
    | cons s h =>
      have hsigned := h.runLength_eq (p := Char.isDigit) (by decide)
      have hrun := (cons s h).runLength_eq (p := Char.isDigit) (by decide)
      cases h with
      | nil => rfl
      | brace => simp only [hsigned, hrun]
      | cons d => simp only [hsigned, hrun]

/-- Behind a fraction the texts are still the same ahead. -/
theorem drop_fractionLength (h : SameAhead cs ds) :
    SameAhead (cs.drop (fractionLength cs)) (ds.drop (fractionLength cs)) := by
  unfold fractionLength
  split
  · next d cs =>
    split
    · obtain ⟨ds, rfl, hdigits⟩ := h.tail (by decide)
      rw [Nat.add_comm, List.drop_succ_cons, List.drop_succ_cons]
      exact hdigits.drop_runLength (by decide)
    · exact h
  · exact h

theorem decimalLength_eq (h : SameAhead cs ds) : decimalLength ds = decimalLength cs := by
  have hwhole := h.drop_runLength (p := isDigitOrBar) (by decide)
  have hfraction := hwhole.drop_fractionLength
  rw [List.drop_drop, List.drop_drop] at hfraction
  unfold decimalLength
  simp only [h.runLength_eq (p := isDigitOrBar) (by decide), hwhole.fractionLength_eq,
    hfraction.exponentLength_eq]

/-- A number is equally long in both. -/
theorem numeralLength_eq (h : SameAhead cs ds) : numeralLength ds = numeralLength cs := by
  have hdecimal := h.decimalLength_eq
  by_cases hzero : cs.head? = some '0'
  · obtain ⟨cs, rfl⟩ : ∃ cs', cs = '0' :: cs' := by
      cases cs with
      | nil => cases hzero
      | cons c cs => exact ⟨cs, by rw [Option.some.inj hzero]⟩
    obtain ⟨ds, rfl, htail⟩ := h.tail (by decide)
    cases htail with
    | nil => rfl
    | brace => simpa [numeralLength] using hdecimal
    | cons b htail =>
      simp only [numeralLength, hdecimal, htail.runLength_eq (p := isHexDigitOrBar) (by decide)]
  · have hplain : ∀ {l : List Char}, l.head? ≠ some '0' → numeralLength l = decimalLength l := by
      intro l hl
      unfold numeralLength
      split
      · exact absurd rfl hl
      · rfl
    rw [hplain hzero, hplain (h.head?_eq ▸ hzero), hdecimal]

/-! ## heads of literals -/

/-- The same literal behind a percent sign begins in both. -/
theorem percentHead_eq (h : SameAhead cs ds) :
    PercentHead.ofChars? ds = PercentHead.ofChars? cs := by
  cases h with
  | nil => rfl
  | brace => rfl
  | cons c h =>
    by_cases hc : c = '%'
    · subst hc
      cases h with
      | nil => rfl
      | brace => rfl
      | cons d h => cases h <;> rfl
    · simp [PercentHead.ofChars?, hc]

/-- What is optional is there in both or in neither. -/
theorem optional_eq {p : Char → Bool} (hp : p '}' = false) (h : SameAhead cs ds) :
    (Marker.optional p ds).1 = (Marker.optional p cs).1 ∧
      SameAhead (Marker.optional p cs).2 (Marker.optional p ds).2 := by
  cases h with
  | nil => exact ⟨rfl, nil⟩
  | brace cs ds => simpa [Marker.optional, hp] using brace cs ds
  | cons c h =>
    simp only [Marker.optional]
    split
    · exact ⟨rfl, h⟩
    · exact ⟨rfl, cons c h⟩

/-- The same name of a marker stands in both. -/
theorem named?_eq (indented : Bool) (quote : Option Char) (h : SameAhead cs ds) :
    Marker.named? indented quote ds = Marker.named? indented quote cs := by
  have hbehind := (h.drop_runLength (p := isNameChar) (by decide)).head?_eq
  unfold runLength at hbehind
  unfold Marker.named?
  simp only [h.takeWhile_eq (p := isNameChar) (by decide), hbehind]

/-- The same marker stands in front of both. -/
theorem marker_eq (h : SameAhead cs ds) : Marker.ofChars? ds = Marker.ofChars? cs := by
  cases h with
  | nil => rfl
  | brace => rfl
  | cons c h =>
    cases h with
    | nil => by_cases hc : c = '<' <;> simp [Marker.ofChars?, hc]
    | brace => by_cases hc : c = '<' <;> simp [Marker.ofChars?, hc]
    | cons d h =>
      by_cases hc : c = '<' ∧ d = '<'
      · obtain ⟨rfl, rfl⟩ := hc
        obtain ⟨hsign, h⟩ := h.optional_eq (p := Marker.isSign) (by decide)
        obtain ⟨hquote, h⟩ := h.optional_eq (p := Marker.isQuote) (by decide)
        simp only [Marker.ofChars?, hsign, hquote, h.named?_eq]
      · have hno : ∀ l : List Char, Marker.ofChars? (c :: d :: l) = none := by
          intro l
          unfold Marker.ofChars?
          split
          · next heq => simp_all
          · rfl
        rw [hno, hno]

end SameAhead

end ConnectorAudit
