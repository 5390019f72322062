import ConnectorAudit.Proofs.Loops

/-!
# Scans from the middle

A scan that begins in the middle of a source knows nothing of what stands before.
If it begins with a brace, that settles what may follow, and a loop that waits
changes no more than the kinds of some words.  What is left of all that a reader
keeps is the jump over the heredocs announced on the line of the brace, and that
one matters: without it the bodies are read as code.

* `exists_rescan`: with no heredoc waiting, the same tokens are read from the brace on;
* `Extent.closing?_eq_some_iff`: where delimiters balance, by counting;
* `Extent.delimited_eq_ok_iff`: hence what is found from a brace is what the whole scan has.
-/

namespace ConnectorAudit

/-! ## from a brace on -/

/-- A brace is read as one, whatever the reader remembers. -/
theorem Reader.tokenAt_brace {r : Reader} {cs : List Char} (hrest : r.rest = '{' :: cs)
    (levels : Nat) (gap : Gap) : tokenAt levels gap r = .ok (r.take .braceOpen gap 1) := by
  cases levels <;> simp [tokenAt, tokenWith, hrest]

/-- The text of a token is what the source goes on with. -/
theorem Reads.text_prefix {source : String} {h : Heredocs} {i : Nat} {t : Token} {s : Reader}
    (ht : Reads source h i t s) (hi : i ≤ source.toList.length) :
    t.text.toList <+: source.toList.drop i := by
  obtain ⟨_, _, ⟨before, after, hsource, hoffset, -⟩, -⟩ := ht.placed
  have hlist : source.toList = before.toList ++ (t.text.toList ++ after.toList) := by
    rw [hsource, String.toList_append, String.toList_append, List.append_assoc]
  have hbyte : byteAt source.toList i = byteAt source.toList before.toList.length := by
    rw [← ht.offset_eq, hoffset, byteAt, hlist, List.take_left, utf8ByteSize_eq]
  have hbefore : before.toList.length ≤ source.toList.length := by simp [hlist]
  have hindex : i = before.toList.length := by
    rcases Nat.lt_trichotomy i before.toList.length with hlt | heq | hgt
    · have := byteAt_lt hlt hbefore
      omega
    · exact heq
    · have := byteAt_lt hgt hi
      omega
  rw [hindex, hlist, List.drop_left]
  exact List.prefix_append _ _

namespace Reader

/-- A scan that begins at a brace reads it, and goes on as any scan behind it would. -/
theorem trace_ofBrace {source : String} {p : Nat} {cs : List Char}
    (hrest : source.toList.drop p = '{' :: cs) :
    (ofCursor (.place source.toList p)).trace.map Prod.fst =
      ((ofCursor (.place source.toList p)).take .braceOpen {} 1).1 ::
        (((ofCursor (.place source.toList p)).advance 1).note
          ((ofCursor (.place source.toList p)).take .braceOpen {} 1).1).trace.map Prod.fst := by
  generalize hr : ofCursor (.place source.toList p) = r
  have hrest' : r.rest = '{' :: cs := by rw [← hr]; exact hrest
  have hlt : p < source.toList.length := by
    by_contra hge
    rw [List.drop_eq_nil_of_le (by omega)] at hrest
    cases hrest
  have hat : r.At source {} p := by
    subst hr
    exact ⟨rfl, by omega, rfl, by rintro _ ⟨⟩, by rintro _ ⟨⟩, by rintro _ ⟨⟩⟩
  have hbrace : source.toList[p]? = some '{' := by
    rw [← hat.head?_eq, hrest']
    rfl
  have hskip : r.skipTrivia = ({}, r) := by
    obtain ⟨s, hbump⟩ := hat.exists_bump hbrace
    have hmark : atDataMarker (.place source.toList p) = false :=
      atDataMarker_eq_false (by rw [hbrace]; decide)
    rw [skipTrivia_eq, hbump]
    simp [hat.cursor_eq, hmark]
  have hstep : r.step = .token (r.take .braceOpen {} 1).1
      ((r.advance 1).note (r.take .braceOpen {} 1).1) := by
    have hended : r.ended = false := by rw [← hr]; rfl
    unfold step
    simp [hskip, hended, hrest', tokenAt_brace hrest']
    rfl
  have hleft : ((r.advance 1).note (r.take .braceOpen {} 1).1).left < r.left := by
    obtain ⟨j, hpj, hj⟩ := hat.advance_pos (n := 1) (by simp [hrest']) Nat.one_pos
      (by rw [hrest']; exact .succ_cons (by decide) (.zero _))
    exact hat.left_lt (hj.note _) hpj
  rw [trace, hstep]
  simp [hleft]

end Reader

/-- With no heredoc waiting at a brace, a scan that begins there reads the brace, and then what the
scan of the whole source reads behind it, but for the kinds of some `do`. -/
theorem ScanAt.rescan {source : String} {tokens : List Token} {i : Nat} {r s : Reader} {t : Token}
    (hscan : ScanAt source tokens i r) (hstep : r.step = .token t s) (hkind : t.kind = .braceOpen)
    (hclear : (Heredocs.ofTokens source tokens).waiting t.offset = none) :
    ∃ k : Cursor, Cursor.at? source t.offset = some k ∧ k.rest.head? = some '{' ∧
      (∀ stop, Extent.spanTo k stop = ⟨t.offset, stop - t.offset, t.line, t.column⟩) ∧
      ∃ u us, (Token.scanLossyFrom k).1 = u :: us ∧ Extent.isDelimiter u '{' = true ∧
        List.Forall₂ Token.Twin (s.trace.map Prod.fst) us := by
  obtain ⟨hended, gap, u, v, hskip, hne, hread, rfl⟩ := Reader.step_eq_token hstep
  obtain ⟨p, -, hu, hended', -⟩ := hscan.reader.skipTrivia_of_rest hskip hne
  have ht := tokenReads_tokenAt source interpolationLimit _ p gap u t v hu hread
  have htext := (formed_tokenAt _ _ _ _ _ hread).text_opener hkind
  obtain ⟨cs, hcs⟩ : ∃ cs, source.toList.drop p = '{' :: cs := by
    obtain ⟨cs, hcs⟩ := ht.text_prefix hu.le_length
    rw [htext] at hcs
    exact ⟨cs, hcs.symm⟩
  have hrest : u.rest = '{' :: cs := hu.rest_eq.trans hcs
  -- The reader behind the brace keeps nothing else of what stood before it.
  rw [Reader.tokenAt_brace hrest] at hread
  obtain ⟨rfl, rfl⟩ := Prod.mk.inj (Except.ok.inj hread)
  have hjump : u.jump = none := hu.jump_eq.trans (by rw [← ht.offset_eq]; exact hclear)
  have hsame : ((Reader.ofCursor (.place source.toList p)).advance 1).note
        ((Reader.ofCursor (.place source.toList p)).take .braceOpen {} 1).1 =
      ((u.advance 1).note (u.take .braceOpen gap 1).1).withLoop none := by
    simp [Reader.note, Token.standing, Reader.take, Token.between, Reader.ofCursor, Reader.advance,
      Reader.withLoop, hu.cursor_eq, hjump, hended', hended, Token.isPunct]
  have hdelimiter : Extent.isDelimiter
      ((Reader.ofCursor (.place source.toList p)).take .braceOpen {} 1).1 '{' = true := by
    rw [← hu.cursor_eq]
    exact beq_iff_eq.2 htext
  refine ⟨.place source.toList p, ?_, ?_, ?_, _, _, ?_, hdelimiter, Reader.twins_trace _ none⟩
  · rw [ht.offset_eq]
    exact Cursor.at?_place hu.le_length
  · rw [Cursor.rest_place, hcs]
    rfl
  · rw [← hu.cursor_eq]
    exact fun stop => rfl
  · rw [Token.scanLossyFrom, Reader.lossyFrom_eq, Reader.trace_ofBrace hcs, hsame]
    rfl

/-- A later token does not end before an earlier one begins. -/
theorem Token.offset_le_stop_of_lt {source : String} {i j : Nat} {t u : Token}
    (ht : (Token.scanLossy source).1[i]? = some t) (hu : (Token.scanLossy source).1[j]? = some u)
    (hij : i < j) : t.offset ≤ u.stop := by
  obtain ⟨_, _, hscan, -⟩ := ScanAt.start_lossy source
  obtain ⟨hi, rfl⟩ := List.getElem?_eq_some_iff.1 ht
  obtain ⟨hj, rfl⟩ := List.getElem?_eq_some_iff.1 hu
  have hle := List.pairwise_iff_getElem.1 hscan.laid.ordered i j hi hj hij
  unfold Token.stop at hle ⊢
  omega

/-- So it is for every brace of a source. -/
theorem exists_rescan {source : String} {i : Nat} {t : Token}
    (ht : (Token.scanLossy source).1[i]? = some t) (hkind : t.kind = .braceOpen)
    (hclear :
      (Heredocs.ofTokens source ((Token.scanLossy source).1.take i)).waiting t.offset = none) :
    ∃ k : Cursor, Cursor.at? source t.offset = some k ∧ k.rest.head? = some '{' ∧
      (∀ stop, Extent.spanTo k stop = ⟨t.offset, stop - t.offset, t.line, t.column⟩) ∧
      ∃ u us, (Token.scanLossyFrom k).1 = u :: us ∧ Extent.isDelimiter u '{' = true ∧
        List.Forall₂ Token.Twin ((Token.scanLossy source).1.drop (i + 1)) us := by
  rw [Token.scanLossy_eq, List.getElem?_map, Option.map_eq_some_iff] at ht
  obtain ⟨e, he, rfl⟩ := ht
  obtain ⟨hi, rfl⟩ := List.getElem?_eq_some_iff.1 he
  have hcut : Token.trace source = (Token.trace source).take i ++
      (Token.trace source)[i] :: (Token.trace source).drop (i + 1) := by
    rw [← List.drop_eq_getElem_cons hi, List.take_append_drop]
  obtain ⟨p, r, hscan, hrest, -⟩ := (ScanAt.start source).trace_append hcut
  obtain ⟨-, s, -, hs, hstep⟩ := hscan.trace_cons hrest
  rw [Token.scanLossy_eq] at hclear ⊢
  rw [List.nil_append, List.map_take] at hscan
  cases hstep with
  | inl hstep =>
    rw [← List.map_drop, ← hs]
    exact hscan.rescan hstep.2 hkind hclear
  | inr hstep =>
    obtain ⟨f, -, hstep⟩ := hstep
    rw [(hscan.stray_of_fault hstep).1] at hkind
    cases hkind

/-! ## where delimiters balance -/

namespace Extent

variable {opens closes : Token → Bool}

/-- As many delimiters are closed as are open, with `depth` of them open before. -/
def Even (opens closes : Token → Bool) (depth : Nat) (ts : List Token) : Prop :=
  depth + ts.countP opens = ts.countP closes

/-- The stretches from the beginning up to the token of index `j` are uneven before it, and even
with it. -/
def FirstEven (opens closes : Token → Bool) (depth : Nat) (ts : List Token) (j : Nat) : Prop :=
  Even opens closes depth (ts.take (j + 1)) ∧ ∀ k < j, ¬Even opens closes depth (ts.take (k + 1))

/-- Behind a token that leaves the stretch uneven, the depth has changed by it. -/
theorem firstEven_cons {t : Token} {ts : List Token} {depth further : Nat}
    (heven : ∀ l, Even opens closes depth (t :: l) ↔ Even opens closes further l)
    (hfurther : 0 < further) (j : Nat) :
    FirstEven opens closes depth (t :: ts) j ↔
      ∃ k, j = k + 1 ∧ FirstEven opens closes further ts k := by
  have hfirst : ¬Even opens closes further [] := by
    simp [Even]
    omega
  cases j with
  | zero => simp [FirstEven, heven, hfirst]
  | succ j =>
    simp only [FirstEven, List.take_succ_cons, heven, Nat.add_right_cancel_iff, exists_eq_left']
    constructor
    · rintro ⟨hj, hbefore⟩
      exact ⟨hj, fun k hk => hbefore (k + 1) (by omega)⟩
    · rintro ⟨hj, hbefore⟩
      refine ⟨hj, fun k hk => ?_⟩
      cases k with
      | zero => exact hfirst
      | succ k => exact hbefore k (by omega)

/-- Behind some opener, the token that is found is the first at which the delimiters balance. -/
theorem closing?_eq_some_iff (hapart : ∀ t, opens t = true → closes t = false) {depth : Nat}
    (hdepth : 0 < depth) {ts : List Token} {u : Token} :
    closing? opens closes depth ts = some u ↔
      ∃ j, ts[j]? = some u ∧ FirstEven opens closes depth ts j := by
  induction ts generalizing depth with
  | nil => simp [closing?]
  | cons t ts ih =>
    -- The index is one further on than behind the token.
    have hshift : ∀ further, 0 < further →
        (∀ l, Even opens closes depth (t :: l) ↔ Even opens closes further l) →
        (closing? opens closes further ts = some u ↔
          ∃ j, (t :: ts)[j]? = some u ∧ FirstEven opens closes depth (t :: ts) j) := by
      intro further hfurther heven
      rw [ih hfurther]
      simp only [firstEven_cons heven hfurther]
      constructor
      · rintro ⟨j, hj, hfirst⟩
        exact ⟨j + 1, hj, j, rfl, hfirst⟩
      · rintro ⟨_, hj, j, rfl, hfirst⟩
        exact ⟨j, hj, hfirst⟩
    unfold closing?
    by_cases hopens : opens t = true
    · have hcloses := hapart t hopens
      rw [if_pos hopens]
      refine hshift (depth + 1) (Nat.succ_pos depth) fun l => ?_
      simp [Even, hopens, hcloses]
      omega
    rw [if_neg hopens]
    by_cases hcloses : closes t = true
    · rw [if_pos hcloses]
      split
      · next hone =>
        obtain rfl : depth = 1 := by omega
        have heven : Even opens closes 1 [t] := by simp [Even, hopens, hcloses]
        constructor
        · rintro ⟨⟩
          exact ⟨0, rfl, heven, fun k hk => by omega⟩
        · rintro ⟨j, hj, -, hbefore⟩
          cases j with
          | zero => exact hj
          | succ j => exact absurd heven (hbefore 0 (Nat.succ_pos j))
      · refine hshift (depth - 1) (by omega) fun l => ?_
        simp [Even, hopens, hcloses]
        omega
    · rw [if_neg hcloses]
      refine hshift depth hdepth fun l => ?_
      simp [Even, hopens, hcloses]

/-- Tokens that are twins balance at the same place. -/
theorem stop_closing?_of_twins {ts us : List Token} (h : List.Forall₂ Token.Twin ts us)
    (opener closer : Char) (depth : Nat) :
    (closing? (isDelimiter · opener) (isDelimiter · closer) depth us).map Token.stop =
      (closing? (isDelimiter · opener) (isDelimiter · closer) depth ts).map Token.stop := by
  induction h generalizing depth with
  | nil => rfl
  | cons htwin _ ih =>
    unfold closing?
    simp only [htwin.isDelimiter_eq]
    split
    · exact ih _
    · split
      · split
        · simp [htwin.stop_eq]
        · exact ih _
      · exact ih _

/-- Among formed tokens the braces are told by their kinds. -/
theorem isDelimiter_of_formed {t : Token} (h : t.Formed) :
    isDelimiter t '{' = (t.kind == .braceOpen) ∧ isDelimiter t '}' = (t.kind == .braceClose) := by
  unfold isDelimiter
  cases hkind : t.kind with
  | braceOpen => simp [h.text_opener hkind]
  | braceClose => simp [h.text_closer hkind]
  | punctuation =>
    have hmem := h.mem_punctuation hkind
    have hopener : t.text ≠ "\x7b" := ne_of_mem_of_not_mem hmem (by decide)
    have hcloser : t.text ≠ "\x7d" := ne_of_mem_of_not_mem hmem (by decide)
    simp [hopener, hcloser]
  | _ => exact ⟨rfl, rfl⟩

/-- The braces of a stretch, as kinds of tokens. -/
abbrev BracesFirstEven (depth : Nat) (ts : List Token) (j : Nat) : Prop :=
  FirstEven (·.kind == .braceOpen) (·.kind == .braceClose) depth ts j

/-- For tokens that are formed the braces can be told by their kinds. -/
theorem bracesFirstEven_iff {ts : List Token} (hformed : ∀ t ∈ ts, t.Formed) (depth j : Nat) :
    FirstEven (isDelimiter · '{') (isDelimiter · '}') depth ts j ↔ BracesFirstEven depth ts j := by
  have heven : ∀ n, Even (isDelimiter · '{') (isDelimiter · '}') depth (ts.take n) ↔
      Even (·.kind == .braceOpen) (·.kind == .braceClose) depth (ts.take n) := by
    intro n
    have hmem : ∀ t ∈ ts.take n, t.Formed := fun t ht => hformed t (List.mem_of_mem_take ht)
    have hopen : (ts.take n).countP (isDelimiter · '{') =
        (ts.take n).countP (·.kind == .braceOpen) :=
      List.countP_congr fun t ht => by rw [(isDelimiter_of_formed (hmem t ht)).1]
    have hclose : (ts.take n).countP (isDelimiter · '}') =
        (ts.take n).countP (·.kind == .braceClose) :=
      List.countP_congr fun t ht => by rw [(isDelimiter_of_formed (hmem t ht)).2]
    rw [Even, hopen, hclose, Even]
  simp only [BracesFirstEven, FirstEven, heven]

/-- What is found from a brace on, if a scan that begins there reads the brace and then tokens
that are twins of `ts`. -/
theorem delimited_of_twins {source : String} {start : Nat} {k : Cursor} {u : Token}
    {ts us : List Token} (hk : Cursor.at? source start = some k) (hhead : k.rest.head? = some '{')
    (hscan : (Token.scanLossyFrom k).1 = u :: us) (hu : isDelimiter u '{' = true)
    (htwins : List.Forall₂ Token.Twin ts us) (hformed : ∀ t ∈ ts, t.Formed) (span : Span) :
    delimited source start '{' '}' = .ok span ↔
      ∃ j w, ts[j]? = some w ∧ BracesFirstEven 1 ts j ∧ spanTo k w.stop = span := by
  have hapart : ∀ t, isDelimiter t '{' = true → isDelimiter t '}' = false := by
    intro t ht
    simp only [isDelimiter, Bool.and_eq_true, beq_iff_eq] at ht
    simp only [isDelimiter, ht.2, Bool.and_eq_false_iff]
    exact .inr (by decide)
  have hfound : delimited source start '{' '}' = .ok span ↔
      ∃ stop, (closing? (isDelimiter · '{') (isDelimiter · '}') 1 us).map Token.stop = some stop ∧
        spanTo k stop = span := by
    unfold delimited
    simp only [hk, hhead, hscan, closing?, hu, if_true]
    split <;> simp [*]
  rw [hfound, stop_closing?_of_twins htwins]
  simp only [Option.map_eq_some_iff, closing?_eq_some_iff hapart Nat.one_pos,
    bracesFirstEven_iff hformed]
  constructor
  · rintro ⟨_, ⟨w, ⟨j, hw, hj⟩, rfl⟩, hspan⟩
    exact ⟨j, w, hw, hj, hspan⟩
  · rintro ⟨j, w, hw, hj, hspan⟩
    exact ⟨_, ⟨w, ⟨j, hw, hj⟩, rfl⟩, hspan⟩

/-- **Rescan.** From a brace of a source, at which no heredoc announced before it on its line
waits, a stretch is found exactly if the braces of the whole scan balance again behind it, and then
it reaches through the first brace at which they do. -/
theorem delimited_eq_ok_iff (source : String) (i : Nat) (t : Token)
    (ht : (Token.scanLossy source).1[i]? = some t) (hkind : t.kind = .braceOpen)
    (hclear :
      (Heredocs.ofTokens source ((Token.scanLossy source).1.take i)).waiting t.offset = none)
    (span : Span) :
    delimited source t.offset '{' '}' = .ok span ↔
      ∃ j u, i < j ∧ (Token.scanLossy source).1[j]? = some u ∧
        BracesFirstEven 0 ((Token.scanLossy source).1.drop i) (j - i) ∧
        span = ⟨t.offset, u.stop - t.offset, t.line, t.column⟩ ∧ span.stop = u.stop := by
  obtain ⟨k, hk, hhead, hspan, u, us, hscan, hu, htwins⟩ := exists_rescan ht hkind hclear
  have hcons : (Token.scanLossy source).1.drop i =
      t :: (Token.scanLossy source).1.drop (i + 1) := by
    obtain ⟨hi, rfl⟩ := List.getElem?_eq_some_iff.1 ht
    exact List.drop_eq_getElem_cons hi
  have hformed : ∀ n ∈ (Token.scanLossy source).1.drop (i + 1), n.Formed :=
    fun n hn => Token.formed_of_mem_scanLossy (List.mem_of_mem_drop hn)
  have heven : ∀ l, Even (·.kind == .braceOpen) (·.kind == .braceClose) 0 (t :: l) ↔
      Even (·.kind == .braceOpen) (·.kind == .braceClose) 1 l := by
    intro l
    simp [Even, hkind]
    omega
  rw [delimited_of_twins hk hhead hscan hu htwins hformed, hcons]
  constructor
  · rintro ⟨j, w, hw, hj, rfl⟩
    rw [List.getElem?_drop] at hw
    refine ⟨i + 1 + j, w, by omega, hw, ?_, hspan w.stop, ?_⟩
    · exact (firstEven_cons heven Nat.one_pos _).2 ⟨j, by omega, hj⟩
    · have hle := Token.offset_le_stop_of_lt ht hw (by omega)
      rw [hspan]
      exact Nat.add_sub_cancel' hle
  · rintro ⟨j, w, hij, hw, hj, rfl, -⟩
    obtain ⟨n, hn, hj⟩ := (firstEven_cons heven Nat.one_pos _).1 hj
    refine ⟨n, w, ?_, hj, hspan w.stop⟩
    rw [List.getElem?_drop, show i + 1 + n = j by omega]
    exact hw

-- With a heredoc waiting at the brace, the body is read as code and its brace counts.
example : delimited "x = <<A, \x7b\n\x7d\nA\n\x7d" 9 '{' '}' = .ok ⟨9, 3, 1, 9⟩ := by decide +kernel

/-- A brace on a line with a loop, some lines behind a heredoc.  The `do` between the braces is a
name where the loop is seen, and opens a body where the scan begins with the brace. -/
def loopBehindHeredoc : String := "f <<A\n\x7d\nA\nwhile g \x7b\"\x7d\" do\x7d end"

theorem delimited_loopBehindHeredoc :
    delimited loopBehindHeredoc 18 '{' '}' = .ok ⟨18, 8, 4, 8⟩ ∧
      ∃ j u, 4 < j ∧ (Token.scanLossy loopBehindHeredoc).1[j]? = some u ∧
        BracesFirstEven 0 ((Token.scanLossy loopBehindHeredoc).1.drop 4) (j - 4) ∧ u.stop = 26 := by
  have hbrace : (Token.scanLossy loopBehindHeredoc).1[4]?.map
      (fun t => (t.kind, t.offset, t.line, t.column)) = some (.braceOpen, 18, 4, 8) := by
    decide +kernel
  have hclear : ((Heredocs.ofTokens loopBehindHeredoc
      ((Token.scanLossy loopBehindHeredoc).1.take 4)).waiting 18).isNone = true := by
    decide +kernel
  have hfound : delimited loopBehindHeredoc 18 '{' '}' = .ok ⟨18, 8, 4, 8⟩ := by
    decide +kernel
  obtain ⟨t, ht, hbrace⟩ := Option.map_eq_some_iff.1 hbrace
  simp only [Prod.mk.injEq] at hbrace
  obtain ⟨hkind, hoffset, -⟩ := hbrace
  refine ⟨hfound, ?_⟩
  rw [← hoffset] at hclear hfound
  obtain ⟨j, u, hj, hu, heven, -, hstop⟩ := (delimited_eq_ok_iff loopBehindHeredoc 4 t ht hkind
    (Option.isNone_iff_eq_none.1 hclear) _).1 hfound
  exact ⟨j, u, hj, hu, heven, hstop.symm.trans (by rw [hoffset]; rfl)⟩

end Extent

end ConnectorAudit
