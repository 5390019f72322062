import ConnectorAudit.Proofs.Traces

/-!
# The forms of tokens

What the kind of a token says about the token, wherever it was read.  Braces
are the one character they stand for, punctuation is one of the texts of its
table, and only literals that may interpolate have tokens below them; and so it
is at every level.

* `formed_tokenAt`: every token that is read is formed;
* `Token.formed_of_mem_scan`: hence all tokens of a source.
-/

namespace ConnectorAudit

/-- The text from a place up to `n` characters on is those characters. -/
theorem Cursor.textTo_advance (k : Cursor) (n : Nat) :
    k.textTo (k.advance n) = String.ofList (k.rest.take n) := by
  have hoffset : (k.advance n).offset = k.offset + byteSize (k.rest.take n) := by
    induction n generalizing k with
    | zero => rw [List.take_zero, advance, byteSize, Nat.add_zero]
    | succ n ih =>
      unfold advance
      split
      · next hnone => simp [next?_eq_none_iff.1 hnone, byteSize]
      · next c l hsome =>
        obtain ⟨hrest, hnext⟩ := next?_eq_some hsome
        rw [ih l, hnext, hrest, List.take_succ_cons, byteSize, Nat.add_assoc]
  unfold textTo
  rw [hoffset, Nat.add_sub_cancel_left]
  nth_rewrite 2 [← List.take_append_drop n k.rest]
  rw [takeBytes_append]

namespace Token

/-- A literal that may interpolate. -/
def mayInterpolate (t : Token) : Bool :=
  t.kind == .string || t.kind == .symbol || t.kind == .command || t.kind == .regex ||
    t.kind == .words

/-- The token is what its kind says, and so are the tokens below it, at every level. -/
inductive Formed : Token → Prop
  | intro (t : Token) (bare : t.mayInterpolate = false → t.nested = [])
      (opener : t.kind = .braceOpen → t.text = "\x7b")
      (closer : t.kind = .braceClose → t.text = "\x7d")
      (listed : t.kind = .punctuation → t.text ∈ punctuation)
      (nested : ∀ n ∈ t.nested, Formed n) : Formed t

/-- A token that interpolates nothing has nothing nested. -/
theorem Formed.nested_eq_nil {t : Token} (h : t.Formed) (ht : t.mayInterpolate = false) :
    t.nested = [] := by
  cases h with
  | intro _ bare _ _ _ _ => exact bare ht

/-- An opening brace is its own text. -/
theorem Formed.text_opener {t : Token} (h : t.Formed) (ht : t.kind = .braceOpen) :
    t.text = "\x7b" := by
  cases h with
  | intro _ _ opener _ _ _ => exact opener ht

/-- A closing brace is its own text. -/
theorem Formed.text_closer {t : Token} (h : t.Formed) (ht : t.kind = .braceClose) :
    t.text = "\x7d" := by
  cases h with
  | intro _ _ _ closer _ _ => exact closer ht

/-- A mark is one of the marks of the language. -/
theorem Formed.mem_punctuation {t : Token} (h : t.Formed) (ht : t.kind = .punctuation) :
    t.text ∈ punctuation := by
  cases h with
  | intro _ _ _ _ listed _ => exact listed ht

theorem Formed.of_mem_nested {t n : Token} (h : t.Formed) (hn : n ∈ t.nested) : n.Formed := by
  cases h with
  | intro _ _ _ _ _ nested => exact nested n hn

/-- The kinds whose text is fixed. -/
def Kind.hasText (kind : Kind) : Bool :=
  kind == .braceOpen || kind == .braceClose || kind == .punctuation

/-- A token of any other kind, with formed tokens below it if it may have some. -/
theorem formed_between {kind : Kind} {gap : Gap} {start stop : Cursor} {value : Option String}
    {nested : List Token} (hkind : kind.hasText = false)
    (hbare : (between kind gap start stop value nested).mayInterpolate = false → nested = [])
    (hnested : ∀ n ∈ nested, n.Formed) : (between kind gap start stop value nested).Formed := by
  have hne : kind ≠ .braceOpen ∧ kind ≠ .braceClose ∧ kind ≠ .punctuation := by
    simpa [Kind.hasText, and_assoc] using hkind
  exact .intro _ hbare (fun h => absurd h hne.1) (fun h => absurd h hne.2.1)
    (fun h => absurd h hne.2.2) hnested

/-- A token of a kind without a text is formed. -/
theorem formed_bare {kind : Kind} {gap : Gap} {start stop : Cursor} {value : Option String}
    (hkind : kind.hasText = false) : (between kind gap start stop value).Formed :=
  formed_between hkind (fun _ => rfl) (by simp)

theorem Formed.of_ok {t : Token} {s : Reader} {p : Token × Reader} (hp : p.1.Formed)
    (hok : (Except.ok p : Except Failure (Token × Reader)) = .ok (t, s)) : t.Formed := by
  obtain rfl := Except.ok.inj hok
  exact hp

end Token

/-! ## lexemes -/

namespace Reader

/-- A stray character is formed. -/
theorem formed_stray (r : Reader) (gap : Gap) : (r.stray gap).1.Formed := by
  unfold stray
  split <;> exact Token.formed_bare rfl

/-- A mark is formed. -/
theorem formed_punctuation (r : Reader) (gap : Gap) : (r.punctuation gap).1.Formed := by
  unfold punctuation
  split
  · next text hfirst =>
    obtain ⟨hmem, hbegins⟩ := firstOf_eq_some hfirst
    have htext : (r.take .punctuation gap text.length).1.text = text := by
      change r.cursor.textTo (r.cursor.advance text.length) = text
      rw [Cursor.textTo_advance, ← String.length_toList,
        ← List.prefix_iff_eq_take.1 (show text.toList <+: r.cursor.rest from hbegins),
        String.ofList_toList]
    refine .intro _ (fun _ => rfl) (fun h => by cases h) (fun h => by cases h) (fun _ => ?_)
      (by simp [take, Token.between])
    rw [htext]
    exact hmem
  · exact r.formed_stray gap

/-- A brace is read as such. -/
theorem formed_brace {r : Reader} {cs : List Char} (gap : Gap) :
    (r.rest = '{' :: cs → (r.take .braceOpen gap 1).1.Formed) ∧
      (r.rest = '}' :: cs → (r.take .braceClose gap 1).1.Formed) := by
  have htext : ∀ c kind, r.rest = c :: cs →
      (r.take kind gap 1).1.text = String.singleton c := by
    intro c kind hrest
    change r.cursor.textTo (r.cursor.advance 1) = _
    rw [Cursor.textTo_advance, show r.cursor.rest = c :: cs from hrest]
    rfl
  constructor
  · intro hrest
    exact .intro _ (fun _ => rfl) (fun _ => htext _ _ hrest) (fun h => by cases h)
      (fun h => by cases h) (by simp [take, Token.between])
  · intro hrest
    exact .intro _ (fun _ => rfl) (fun h => by cases h) (fun _ => htext _ _ hrest)
      (fun h => by cases h) (by simp [take, Token.between])

/-- A word is of a kind without a text. -/
theorem hasText_wordKind (r : Reader) (text : String) : (r.wordKind text).1.hasText = false := by
  unfold wordKind
  simp only
  repeat' split
  all_goals rfl

/-- A word is formed. -/
theorem formed_word (r : Reader) (gap : Gap) : (r.word gap).1.Formed := by
  unfold word
  simp only
  split
  · exact Token.formed_bare rfl
  · exact Token.formed_bare (hasText_wordKind r _)

end Reader

/-! ## literals -/

/-- All tokens of the segments that are read are formed. -/
def FormsSegments (segment : SegmentReader) : Prop :=
  ∀ q r ts s, segment q r = .ok (ts, s) → ∀ t ∈ ts, t.Formed

/-- All tokens that are read are formed. -/
def FormsTokens (token : Gap → Reader → Except Failure (Token × Reader)) : Prop :=
  ∀ gap r t s, token gap r = .ok (t, s) → t.Formed

namespace FormsSegments

variable {segment : SegmentReader} {gap : Gap} {r s : Reader} {t : Token}

/-- What a quotation holds is formed. -/
theorem body (hsegment : FormsSegments segment) {q : Quoting} {depth : Nat} {body result : Quoted}
    (hbody : ∀ n ∈ body.nested, n.Formed) (hok : q.body segment depth body r = .ok (result, s)) :
    ∀ n ∈ result.nested, n.Formed := by
  have hsigil : ∀ {p : Bool} {body : Quoted}, (∀ n ∈ body.nested, n.Formed) →
      ∀ n ∈ (if p then { body with dynamic := true } else body).nested, n.Formed := by
    intro p body hbody
    split <;> exact hbody
  fun_induction Quoting.body q segment depth body r with
  | case1 => cases hok
  | case2 => cases hok
  | case3 depth body r s' e t hbump' _ hbump _ ih =>
    refine ih ?_ hok
    unfold Quoted.pushEscaped
    split
    · exact hbody
    · split <;> exact hbody
  | case4 => cases hok
  | case5 depth body r c s' hbump _ _ _ tokens t hread _ ih =>
    refine ih (fun n hn => ?_) hok
    cases List.mem_append.1 hn with
    | inl hn => exact hbody n hn
    | inr hn => exact hsegment _ _ _ _ hread n hn
  | case6 => cases hok
  | case7 =>
    rename_i ih
    exact ih (hsigil hbody) hok
  | case8 =>
    obtain ⟨rfl, -⟩ := Prod.mk.inj (Except.ok.inj hok)
    exact hsigil hbody
  | case9 =>
    rename_i ih
    exact ih (hsigil hbody) hok
  | case10 =>
    rename_i ih
    exact ih (hsigil hbody) hok

/-- A quotation is formed. -/
theorem quotation (hsegment : FormsSegments segment) {quote : Char}
    (hok : r.quotation segment gap quote = .ok (t, s)) : t.Formed := by
  unfold Reader.quotation at hok
  obtain ⟨⟨body, u⟩, hbody, hok⟩ := bind_eq_ok hok
  simp only at hok
  split at hok
  · obtain ⟨rfl, -⟩ := Prod.mk.inj (Except.ok.inj hok)
    exact Token.formed_bare rfl
  · obtain ⟨rfl, -⟩ := Prod.mk.inj (Except.ok.inj hok)
    have hnested := hsegment.body (by simp) hbody
    split
    · exact Token.formed_between rfl (fun h => by cases h) hnested
    · exact Token.formed_between rfl (fun h => by cases h) hnested

/-- A symbol in quotes is formed. -/
theorem quotedSymbol (hsegment : FormsSegments segment) {quote : Char}
    (hok : r.quotedSymbol segment gap quote = .ok (t, s)) : t.Formed := by
  unfold Reader.quotedSymbol at hok
  obtain ⟨⟨body, u⟩, hbody, hok⟩ := bind_eq_ok hok
  obtain ⟨rfl, -⟩ := Prod.mk.inj (Except.ok.inj hok)
  exact Token.formed_between rfl (fun h => by cases h) (hsegment.body (by simp) hbody)

/-- A regex is formed. -/
theorem regex (hsegment : FormsSegments segment) (hok : r.regex segment gap = .ok (t, s)) :
    t.Formed := by
  unfold Reader.regex at hok
  obtain ⟨⟨body, u⟩, hbody, hok⟩ := bind_eq_ok hok
  obtain ⟨rfl, -⟩ := Prod.mk.inj (Except.ok.inj hok)
  exact Token.formed_between rfl (fun h => by cases h) (hsegment.body (by simp) hbody)

/-- A literal behind a percent sign is formed. -/
theorem percent (hsegment : FormsSegments segment) {head : PercentHead}
    (hok : r.percent segment gap head = .ok (t, s)) : t.Formed := by
  unfold Reader.percent at hok
  obtain ⟨⟨body, u⟩, hbody, hok⟩ := bind_eq_ok hok
  obtain ⟨rfl, -⟩ := Prod.mk.inj (Except.ok.inj hok)
  have hkind : head.kind = .words ∨ head.kind = .regex ∨ head.kind = .symbol ∨
      head.kind = .command ∨ head.kind = .string := by
    unfold PercentHead.kind
    repeat' split
    all_goals simp
  have hnested := hsegment.body (by simp) hbody
  refine Token.formed_between ?_ (fun h => ?_) hnested
  · obtain h | h | h | h | h := hkind <;> rw [h] <;> rfl
  · obtain h' | h' | h' | h' | h' := hkind <;> simp [Token.mayInterpolate, Token.between, h'] at h

/-- What a colon begins is formed. -/
theorem colon (hsegment : FormsSegments segment) (hok : r.colon segment gap = .ok (t, s)) :
    t.Formed := by
  have hpunctuation := r.formed_punctuation gap
  unfold Reader.colon at hok
  split at hok
  · exact .of_ok hpunctuation hok
  · split at hok
    · exact hsegment.quotedSymbol hok
    · split at hok
      · obtain ⟨rfl, -⟩ := Prod.mk.inj (Except.ok.inj hok)
        exact Token.formed_bare rfl
      · split at hok
        · split at hok
          · obtain ⟨rfl, -⟩ := Prod.mk.inj (Except.ok.inj hok)
            exact Token.formed_bare rfl
          · exact .of_ok hpunctuation hok
        · exact .of_ok hpunctuation hok

end FormsSegments

/-! ## tokens -/

theorem Reader.formed_sigilName (r : Reader) (gap : Gap) : (r.sigilName gap).1.Formed :=
  Token.formed_bare rfl

theorem FormsSegments.regexOrSlash {segment : SegmentReader} (hsegment : FormsSegments segment)
    (r : Reader) (gap : Gap) : (r.regexOrSlash segment gap).1.Formed := by
  unfold Reader.regexOrSlash
  split
  · next t s hregex =>
    split
    · exact Reader.formed_punctuation _ gap
    · exact hsegment.regex hregex
  · exact Reader.formed_punctuation _ gap

/-- A heredoc is formed. -/
theorem Reader.formed_heredoc {r s : Reader} {gap : Gap} {m : Marker} {t : Token}
    (hok : r.heredoc gap m = .ok (t, s)) : t.Formed := by
  unfold Reader.heredoc at hok
  simp only at hok
  split at hok
  · cases hok
  · split at hok
    · cases hok
    · obtain ⟨rfl, -⟩ := Prod.mk.inj (Except.ok.inj hok)
      exact Token.formed_bare rfl

theorem Reader.formed_blockComment {r s : Reader} {gap : Gap} {t : Token}
    (hok : r.blockComment gap = .ok (t, s)) : t.Formed := by
  unfold Reader.blockComment at hok
  split at hok
  · cases hok
  · obtain ⟨rfl, -⟩ := Prod.mk.inj (Except.ok.inj hok)
    exact Token.formed_bare rfl

/-- A token is formed, if what it interpolates is. -/
theorem FormsSegments.tokenWith {segment : SegmentReader} (hsegment : FormsSegments segment) :
    FormsTokens (Reader.tokenWith segment) := by
  intro gap r t s hok
  have hpunctuation := r.formed_punctuation gap
  unfold Reader.tokenWith at hok
  split at hok
  · cases hok
  · next c cs hrest =>
    by_cases hcomment : c = '#'
    · rw [if_pos hcomment] at hok
      exact .of_ok (Token.formed_bare rfl) hok
    rw [if_neg hcomment] at hok
    by_cases hblock : c = '=' ∧ Reader.opensBlockComment r.cursor
    · rw [if_pos hblock] at hok
      exact Reader.formed_blockComment hok
    rw [if_neg hblock] at hok
    by_cases hquote : c = '\'' ∨ c = '"' ∨ c = '\x60'
    · rw [if_pos hquote] at hok
      exact hsegment.quotation hok
    rw [if_neg hquote] at hok
    by_cases hopen : c = '{'
    · rw [if_pos hopen] at hok
      exact .of_ok ((Reader.formed_brace gap).1 (hopen ▸ hrest)) hok
    rw [if_neg hopen] at hok
    by_cases hclose : c = '}'
    · rw [if_pos hclose] at hok
      exact .of_ok ((Reader.formed_brace gap).2 (hclose ▸ hrest)) hok
    rw [if_neg hclose] at hok
    by_cases hcolon : c = ':'
    · rw [if_pos hcolon] at hok
      exact hsegment.colon hok
    rw [if_neg hcolon] at hok
    by_cases hslash : c = '/'
    · rw [if_pos hslash] at hok
      split at hok
      · exact hsegment.regex hok
      · split at hok
        · exact .of_ok (hsegment.regexOrSlash r gap) hok
        · exact .of_ok hpunctuation hok
    rw [if_neg hslash] at hok
    by_cases hpercent : c = '%'
    · rw [if_pos hpercent] at hok
      split at hok
      · split at hok
        · exact hsegment.percent hok
        · exact .of_ok hpunctuation hok
      · exact .of_ok hpunctuation hok
    rw [if_neg hpercent] at hok
    by_cases hmark : c = '<'
    · rw [if_pos hmark] at hok
      split at hok
      · split at hok
        · exact Reader.formed_heredoc hok
        · exact .of_ok hpunctuation hok
      · exact .of_ok hpunctuation hok
    rw [if_neg hmark] at hok
    split at hok
    · exact .of_ok (r.formed_sigilName gap) hok
    · split at hok
      · exact .of_ok (Token.formed_bare rfl) hok
      · split at hok
        · exact .of_ok (r.formed_word gap) hok
        · exact .of_ok hpunctuation hok

/-- The tokens of a segment are those that the level below reads. -/
theorem FormsTokens.segmentTokens {token : Gap → Reader → Except Failure (Token × Reader)}
    (htoken : FormsTokens token) {q : Quoting} {braces : Nat} {tokens result : List Token}
    {r s : Reader} (htokens : ∀ t ∈ tokens, t.Formed)
    (hok : q.segmentTokens token braces tokens r = .ok (result, s)) :
    ∀ t ∈ result, t.Formed := by
  fun_induction Quoting.segmentTokens q token braces tokens r with
  | case1 braces tokens r gap s' hskip hrest =>
    simp only [hskip, hrest] at hok
    cases hok
  | case2 braces tokens r gap s' hskip c tail hrest hclose =>
    simp only [hskip, hrest, if_pos hclose] at hok
    obtain ⟨rfl, -⟩ := Prod.mk.inj (Except.ok.inj hok)
    simpa using htokens
  | case3 braces tokens r gap s' hskip c tail hrest hclose failure hread =>
    simp only [hskip, hrest, if_neg hclose, hread] at hok
    cases hok
  | case4 braces tokens r gap s' hskip c tail hrest hclose t u hread =>
    rename_i hleft _ ih
    simp only [hskip, hrest, if_neg hclose, hread, if_pos hleft] at hok
    exact ih (List.forall_mem_cons.2 ⟨htoken _ _ _ _ hread, htokens⟩) hok
  | case5 braces tokens r gap s' hskip c tail hrest hclose t u hread hleft =>
    simp only [hskip, hrest, if_neg hclose, hread, if_neg hleft] at hok
    cases hok

/-- What is interpolated is formed, if its tokens are. -/
theorem FormsTokens.segmentWith {token : Gap → Reader → Except Failure (Token × Reader)}
    (htoken : FormsTokens token) : FormsSegments (segmentWith token) := by
  intro q r ts s hok
  unfold ConnectorAudit.segmentWith at hok
  simp only at hok
  split at hok
  · cases hok
  · next tokens u hread =>
    obtain ⟨rfl, -⟩ := Prod.mk.inj (Except.ok.inj hok)
    exact htoken.segmentTokens (by simp) hread

/-- Every token that is read is formed, whatever levels of interpolation it may open. -/
theorem formed_tokenAt (levels : Nat) : FormsTokens (Reader.tokenAt levels) := by
  induction levels with
  | zero =>
    refine FormsSegments.tokenWith ?_
    intro q r ts s hok
    cases hok
  | succ levels ih => exact ih.segmentWith.tokenWith

/-- All tokens of a trace are formed. -/
theorem Reader.formed_of_mem_trace {r : Reader} {e : Token × Option Fault} (h : e ∈ r.trace) :
    e.1.Formed := by
  have hread : ∀ {r s : Reader} {t : Token}, r.step = .token t s → t.Formed := by
    intro r s t hstep
    obtain ⟨-, gap, u, v, -, -, hok, -⟩ := step_eq_token hstep
    exact formed_tokenAt _ _ _ _ _ hok
  have hstray : ∀ {r s : Reader} {f : Fault} {t : Token}, r.step = .fault f t s → t.Formed := by
    intro r s f t hstep
    obtain ⟨-, gap, u, ended, -, -, rfl, -⟩ := step_eq_fault hstep
    exact formed_stray _ gap
  have hlater : ∀ {r s : Reader}, ((s.left < r.left → e ∈ s.trace → e.1.Formed)) →
      e ∈ (if s.left < r.left then s.trace else []) → e.1.Formed := by
    intro r s ih hmem
    split at hmem
    · next hleft => exact ih hleft hmem
    · cases hmem
  fun_induction Reader.trace r with
  | case1 => cases h
  | case2 r t s hstep ih =>
    cases List.mem_cons.1 h with
    | inl h => exact h ▸ hread hstep
    | inr h => exact hlater ih h
  | case3 r f t s hstep ih =>
    cases List.mem_cons.1 h with
    | inl h => exact h ▸ hstray hstep
    | inr h => exact hlater ih h

/-! ## whole sources -/

namespace Token

variable {source : String} {t : Token}

/-- Every token of a scan that skips faults is formed. -/
theorem formed_of_mem_scanLossy (h : t ∈ (scanLossy source).1) : t.Formed := by
  rw [scanLossy_eq] at h
  obtain ⟨e, he, rfl⟩ := List.mem_map.1 h
  exact Reader.formed_of_mem_trace he

/-- Every token of a scan is formed. -/
theorem formed_of_mem_scan {tokens : List Token} (hscan : scan source = .ok tokens)
    (h : t ∈ tokens) : t.Formed := by
  rw [scan_eq] at hscan
  split at hscan
  · obtain rfl := Except.ok.inj hscan
    obtain ⟨e, he, rfl⟩ := List.mem_map.1 h
    exact Reader.formed_of_mem_trace he
  · cases hscan

end Token

end ConnectorAudit
