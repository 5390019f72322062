import ConnectorAudit.Proofs.Continuations
import ConnectorAudit.Proofs.Quotations
import ConnectorAudit.Proofs.Readings
import ConnectorAudit.Proofs.Traversals

/-!
# Segments of a literal

A string literal that consists of segments of code.  The tokens of all segments are
read as one sequence of statements, so whether the segments are independent depends
on what they hold: an expression of the first may go on with the second.

Two segments are independent if the tokens of the first and of the second come apart
(`Token.apart`), and if no slash of the first waits for another one to close it
(`Token.leans`).  Then the children of the literal are those of the one segment, and
behind them those of the other (`children_interpolating`).
-/

namespace ConnectorAudit

namespace Text

/-- A segment of code, as it stands in a literal. -/
def segment (code : String) : List Char := '#' :: '{' :: (code.toList ++ ['}'])

/-- A string literal of nothing but segments. -/
def interpolating (codes : List String) : String :=
  String.ofList ('"' :: (codes.flatMap segment ++ ['"']))

/-- An interpolating string is its segments between quotation marks. -/
theorem toList_interpolating (codes : List String) :
    (interpolating codes).toList = '"' :: (codes.flatMap segment ++ ['"']) :=
  String.toList_ofList

end Text

open Text (interpolating)

/-- By how much what stands behind a segment is moved. -/
def Shift.ofSegment (code : String) : Shift where
  bytes := code.utf8ByteSize + 3
  lines := code.toList.count '\n'
  columns := if '\n' ∈ code.toList then Text.columnBehind code.toList else code.length + 3

/-- Behind a segment the column is further by that of its shift. -/
theorem Text.columnBehind_segment (code : String) :
    columnBehind ('"' :: segment code) =
      columnBehind ['"'] + (Shift.ofSegment code).columns := by
  have hquote : columnBehind ['"'] = 1 := by decide
  have hbrace : '\n' ∉ ['}'] := by decide
  rw [hquote, Shift.ofSegment]
  by_cases hfeed : '\n' ∈ code.toList
  · have hmem : '\n' ∈ code.toList ++ ['}'] := List.mem_append_left _ hfeed
    calc columnBehind (['"', '#', '{'] ++ (code.toList ++ ['}']))
        = columnBehind (code.toList ++ ['}']) := columnBehind_append_of_mem hmem
      _ = columnBehind code.toList + 1 := columnBehind_append_of_not_mem hbrace
      _ = _ := by rw [if_pos hfeed, Nat.add_comm]
  · have hline : '\n' ∉ segment code := by simp [segment, hfeed]
    calc columnBehind (['"'] ++ segment code)
        = columnBehind ['"'] + (segment code).length := columnBehind_append_of_not_mem hline
      _ = _ := by simp [segment, hquote, if_neg hfeed, String.length_toList]

/-! ## statements behind statements -/

namespace Level

variable {expression : Rule Tree} {c : Closer} {below : Level}

/-- Statements that were read before stand before those that are read. -/
theorem statementLoop_done (done : List Tree) (p : Progress) :
    statementLoop expression c done p =
      (fun x => (done.reverse ++ x.1, x.2)) <$> statementLoop expression c [] p := by
  induction hn : p.left using Nat.strongRecOn generalizing done p with
  | ind n ih =>
    rw [statementLoop_eq, statementLoop_eq expression c []]
    cases hnext : p.next? with
    | none =>
      simp only
      split
      · simp [Functor.map, Except.map]
      · rfl
    | some next =>
      obtain ⟨t, q⟩ := next
      have hleft := Progress.left_next? hnext
      simp only
      split
      · simp [Functor.map, Except.map]
      · split
        · rfl
        · split
          · exact ih _ (by omega) done q rfl
          · cases expression p with
            | error failure => rfl
            | ok read =>
              obtain ⟨tree, r⟩ := read
              simp only
              split
              · next hlt =>
                rw [ih _ (hn ▸ hlt) (tree :: done) r rfl, ih _ (hn ▸ hlt) [tree] r rfl]
                cases statementLoop expression c [] r <;> simp [Functor.map, Except.map]
              · simp [Functor.map, Except.map]

/-- A sequence of statements that ends with the tokens. -/
theorem items_eq_nil_of_eof {p : Progress} (h : Closer.eof = .eof ∧ p.feed.items = [] ∨
    ∃ t q, p.next? = some (t, q) ∧ Closer.eof.matches t = true) : p.feed.items = [] := by
  obtain ⟨-, hnil⟩ | ⟨t, q, -, hmatch⟩ := h
  · exact hnil
  · cases hmatch

/-- Tokens that come apart hold the statements of the one and those of the other. -/
theorem statementLoop_append (hbelow : below.Sews) {ts us : List Token} (σ : Shift)
    (hapart : Token.apart (Token.significant ts) (Token.significant us) = true)
    {a b : List Tree} {last₁ last₂ : Span} {q r : Progress}
    (hts : statementLoop (below.expression .statement) .eof [] (.ofTokens ts last₁) = .ok (a, q))
    (hus : statementLoop (below.expression .statement) .eof [] (.ofTokens us last₂) = .ok (b, r))
    (last : Span) :
    ∃ z, statementLoop (below.expression .statement) .eof []
      (.ofTokens (ts ++ us.map (Token.moved σ)) last) = .ok (a ++ b.map (Tree.moved σ), z) := by
  -- The statements of the first tokens, up to the seam.
  let s₁ : Seam := ⟨Token.significant ts, (Token.significant us).map (Token.moved σ), {}, by
    rw [Token.apart_moved, hapart]⟩
  have hstart : s₁.Same (.ofTokens ts last₁) (.ofTokens (ts ++ us.map (Token.moved σ)) last) := by
    refine ⟨List.suffix_refl _, ?_, fun hlt => absurd hlt (Nat.lt_irrefl _)⟩
    change (ts ++ us.map (Token.moved σ)).filter (·.kind != .comment) =
      (Token.significant ts).map (Token.moved {}) ++ (Token.significant us).map (Token.moved σ)
    rw [List.filter_append, List.filter_map, funext Token.moved_zero, List.map_id']
    simp [Token.significant, Function.comp_def]
  obtain ⟨-, hq, q', hsewn, hfirst⟩ := hbelow.statementLoop hstart hts
  -- The statements of the others, up to the end.
  let s₂ : Seam := ⟨Token.significant us, [], σ, Token.apart_nil _⟩
  have hbehind : s₂.Same (.ofTokens us last₂) q' := by
    refine ⟨List.suffix_refl _, ?_, fun hlt => absurd hlt (Nat.lt_irrefl _)⟩
    rw [hsewn.items, items_eq_nil_of_eof hq]
    exact (List.append_nil _).symm
  obtain ⟨-, hr, z, hend, hsecond⟩ := hbelow.statementLoop hbehind hus
  have hz : z.next? = none := by
    refine Progress.next?_of_items_nil ?_
    rw [hend.items, items_eq_nil_of_eof hr]
    rfl
  rw [statementLoop_eq (p := z), hz] at hsecond
  refine ⟨z, ?_⟩
  rw [List.map_nil] at hfirst hsecond
  rw [hfirst, statementLoop_done, hsecond, funext Tree.moved_zero, List.map_id']
  simp [Functor.map, Except.map, s₂]

/-- Code in a literal is a sequence of statements, and so is none. -/
theorem interpolated_above (t : Token) (notes : List String) :
    interpolated (above below) t notes =
      match statementLoop (below.expression .statement) .eof [] (.ofTokens t.nested t.span) with
      | .error failure => .error ⟨failure.error, notes⟩
      | .ok (trees, inner) => .ok (trees, notes ++ inner.notes) := by
  unfold interpolated
  split
  · next hnone =>
    rw [List.isEmpty_iff.1 hnone, statementLoop_eq]
    simp [Progress.ofTokens, Progress.next?]
  · rfl

/-- A string that ends the tokens. -/
theorem operandAbove_string {t : Token} (hkind : t.kind = .string) (ctx : Context) (last : Span)
    (notes : List String) :
    operandAbove below ctx (.before [t] last notes) =
      (fun x => (⟨.literal (literalOf t), t.span, x.1⟩, .before [] t.span x.2)) <$>
        interpolated below t notes := by
  have hcloser : t.isCloser = false := by simp [Token.isCloser, Token.isPunct, hkind]
  simp only [operandAbove, Progress.next?_before_cons, hcloser, hkind, Bool.false_eq_true, if_false,
    literal, if_true]
  change (interpolated below t notes >>= fun x => stringLoop below (literalOf t) t.span x.1
    (.before [] t.span x.2)) >>= _ = _
  cases interpolated below t notes with
  | error failure => rfl
  | ok read =>
    have hloop : stringLoop below (literalOf t) t.span read.1 (.before [] t.span read.2) =
        .ok (⟨.literal (literalOf t), t.span, read.1⟩, .before [] t.span read.2) := by
      rw [stringLoop]
      rfl
    simp only [bind, Except.bind, hloop]
    exact clinging_before rfl

/-- A string is an expression, with what it interpolates as children. -/
theorem expressionAbove_string {t : Token} (hkind : t.kind = .string) (ctx : Context) (last : Span)
    (notes : List String) :
    expressionAbove (above below) ctx (.before [t] last notes) =
      (fun x => (⟨.literal (literalOf t), t.span, x.1⟩, .before [] t.span x.2)) <$>
        interpolated below t notes := by
  unfold expressionAbove
  change (operandAbove below ctx (.before [t] last notes) >>= _) = _
  rw [operandAbove_string hkind]
  cases interpolated below t notes with
  | error failure => rfl
  | ok read =>
    have hloop : operandLoop (operandAbove below ctx) ctx [] (.before [] t.span read.2) =
        .ok ([], .before [] t.span read.2) := by
      rw [operandLoop]
      rfl
    change (operandLoop (operandAbove below ctx) ctx [] (.before [] t.span read.2) >>= _) = _
    rw [hloop]
    rfl

end Level

/-- A parse of a string with code in it is one of the code. -/
theorem Parsed.ofTokens_string {t : Token} (hkind : t.kind = .string) :
    Parsed.ofTokens [t] =
      (fun x => ⟨.ofStatements [⟨.literal (Level.literalOf t), t.span, x.1⟩], x.2⟩) <$>
        Level.interpolated (Level.levelAt (nestingLimit - 2)) t [] := by
  have hcloser : t.isCloser = false := by simp [Token.isCloser, Token.isPunct, hkind]
  have hseparates : t.separatesStatements = false := by
    simp [Token.separatesStatements, Token.isSeparatorWord, Token.isPunct, hkind]
  have hstart : Progress.ofTokens [t] {} = .before [t] {} [] := by
    simp [Progress.ofTokens, Progress.before, hkind]
  unfold Parsed.ofTokens
  change (Level.statementLoop
    (Level.expressionAbove (Level.above (Level.levelAt (nestingLimit - 2))) .statement) .eof []
    (.ofTokens [t] {}) >>= _) = _
  rw [hstart, Level.statementLoop_before_cons, Level.expressionAbove_string hkind]
  simp only [hcloser, hseparates, Closer.matches]
  cases Level.interpolated (Level.levelAt (nestingLimit - 2)) t [] with
  | error failure => rfl
  | ok read =>
    change (Level.statementLoop _ .eof [_] (.before [] t.span read.2) >>= _) = _
    rw [Level.statementLoop_nil]
    rfl

/-! ## segments behind segments -/

namespace Graft

variable (code more : String)

/-- The first of two segments, taken from where it is the only one. -/
def first : Graft where
  stretch := Text.segment code
  front := ['"']
  front' := ['"']
  back := ['"']
  back' := Text.segment more ++ ['"']
  shift := {}
  front_ne_nil := List.cons_ne_nil _ _
  newline_not_mem_front := by decide
  bytes_eq := rfl
  lines_eq := rfl
  columns_eq := rfl
  ends := .inr ⟨⟨'#' :: '{' :: code.toList, rfl⟩, rfl, rfl⟩

/-- Behind a segment the byte is further by that of its shift. -/
theorem bytes_segment : byteSize ('"' :: Text.segment code) =
    byteSize ['"'] + (Shift.ofSegment code).bytes := by
  have hsize := utf8ByteSize_eq code
  have hchars : Char.utf8Size '"' = 1 ∧ Char.utf8Size '#' = 1 ∧ Char.utf8Size '{' = 1 ∧
    Char.utf8Size '}' = 1 := by decide
  simp only [Text.segment, Shift.ofSegment, byteSize, byteSize_append, hsize, hchars]
  omega

/-- Behind a segment the line is further by that of its shift. -/
theorem lines_segment : Text.lineBehind ('"' :: Text.segment code) =
    Text.lineBehind ['"'] + (Shift.ofSegment code).lines := by
  simp [Text.segment, Shift.ofSegment, Text.lineBehind]

/-- The second of two segments, taken from where it is the only one. -/
def second : Graft where
  stretch := Text.segment more ++ ['"']
  front := ['"']
  front' := '"' :: Text.segment code
  back := []
  back' := []
  shift := .ofSegment code
  front_ne_nil := List.cons_ne_nil _ _
  newline_not_mem_front := by decide
  bytes_eq := bytes_segment code
  lines_eq := lines_segment code
  columns_eq := Text.columnBehind_segment code
  ends := .inl ⟨rfl, rfl⟩

/-- The first segment is taken from the string that has no other. -/
theorem donor_first : (first code more).donor = (interpolating [code]).toList := by
  simp [donor, first, Text.toList_interpolating]

/-- The first segment is put in front of the second. -/
theorem host_first : (first code more).host = (interpolating [code, more]).toList := by
  simp [host, first, Text.toList_interpolating]

/-- The second segment is taken from the string that has no other. -/
theorem donor_second : (second code more).donor = (interpolating [more]).toList := by
  simp [donor, second, Text.toList_interpolating]

/-- The second segment is put behind the first. -/
theorem host_second : (second code more).host = (interpolating [code, more]).toList := by
  simp [host, second, Text.toList_interpolating]

end Graft

/-- Readers at the beginning of the stretch. -/
theorem Graft.Matches.start {g : Graft} {k k' : Cursor} (hk : k = .place g.donor g.front.length)
    (hk' : k' = .place g.host g.front'.length) : g.Matches k k' :=
  ⟨0, Nat.zero_le _, hk, hk'⟩

/-- Behind the mark that begins them, both literals begin with the stretch. -/
theorem Graft.follows_inside {g : Graft} {source source' : String}
    (hdonor : g.donor = source.toList) (hhost : g.host = source'.toList)
    (hfront : g.front.length = 1) (hfront' : g.front'.length = 1) :
    g.Follows (.inside source) (.inside source') := by
  refine ⟨.start ?_ ?_, .none, rfl, rfl, rfl⟩
  · rw [Reader.cursor_inside, hdonor, hfront]
  · rw [Reader.cursor_inside, hhost, hfront']

/-- Where only the mark that closes the literal is left, the second segment begins. -/
theorem Graft.Follows.second {code more : String} {w w' u : Reader}
    (h : (first code more).Follows w w') (hrest : w.rest = ['"']) (hbump : w.bump = some ('"', u))
    (hu : u.jump = none) (hfresh : (Reader.inside (interpolating [code])).Unmoved u) :
    (second code more).Follows (.inside (interpolating [more])) w' := by
  have hmoved := Reader.unmoved_bump hbump
  have hcursor : w'.cursor = .place (first code more).host (1 + (Text.segment code).length) := by
    obtain ⟨m, hm, hk, hk'⟩ := h.cursor
    have hlength : (((Text.segment code) ++ ['"']).drop m).length = 1 := by
      rw [Reader.rest, hk, Cursor.rest_place, drop_donor] at hrest
      exact congrArg List.length hrest
    rw [List.length_drop, List.length_append, List.length_singleton] at hlength
    replace hm : m ≤ (Text.segment code).length := hm
    rw [hk', show (Text.segment code).length = m by omega]
    rfl
  have hjump : w'.jump = none := by
    have hjumps := h.jump
    rw [← (Reader.next?_of_bump hbump (by decide)).2, hu] at hjumps
    cases hw' : w'.jump with
    | none => rfl
    | some j =>
      rw [hw'] at hjumps
      cases hjumps
  refine ⟨.start ?_ ?_, ?_, ?_, ?_, ?_⟩
  · rw [Reader.cursor_inside, donor_second]
    rfl
  · rw [hcursor, host_first, host_second, Nat.add_comm]
    rfl
  · rw [Reader.jump_inside, hjump]
    exact .none
  · rw [h.previous, ← hmoved.previous, hfresh.previous, Reader.previous_inside,
      Reader.previous_inside]
    rfl
  · rw [h.afterQuestion, ← hmoved.afterQuestion, hfresh.afterQuestion, Reader.afterQuestion_inside,
      Reader.afterQuestion_inside]
  · rw [h.loopLine, ← hmoved.loopLine, hfresh.loopLine, Reader.loopLine_inside,
      Reader.loopLine_inside]
    rfl

/-- A body that begins with code is dynamic. -/
theorem Quoting.dynamic_of_body {q : Quoting} {segment : SegmentReader} {depth : Nat}
    {body b : Quoted} {r s : Reader} {cs : List Char} (hrest : r.rest = '#' :: '{' :: cs)
    (hq : q.interpolates = true) (h : q.body segment depth body r = .ok (b, s)) :
    b.dynamic = true := by
  obtain ⟨v, hbump⟩ := Reader.exists_bump_of_head? (show r.rest.head? = some '#' by rw [hrest]; rfl)
  have hv : v.rest.head? = some '{' := by
    have hcons := (Cursor.next?_eq_some (Reader.next?_of_bump hbump (by decide)).1).1
    rw [Reader.rest, (List.cons.inj (hrest.symm.trans hcons)).2.symm, List.head?_cons]
  have hopens : (q.interpolates && '#' == '#' && v.rest.head? == some '{') = true := by
    rw [hq, hv]
    rfl
  rw [body_eq_turn, turn] at h
  simp only [hbump, hopens, if_true] at h
  rw [if_neg (by decide)] at h
  cases hread : segment q (v.advance 1) with
  | error failure =>
    rw [hread] at h
    cases h
  | ok read =>
    obtain ⟨tokens, t⟩ := read
    by_cases hlt : t.left < r.left
    · simp only [hread, if_pos hlt] at h
      by_contra hstatic
      cases ((keeps_body h).2.static (Bool.eq_false_iff.2 hstatic)).1
    · simp only [hread, if_neg hlt] at h
      cases h

theorem Quoted.moved_zero (body : Quoted) : body.moved {} = body := by
  rw [Quoted.moved, funext Token.moved_zero, List.map_id']

/-! ## two segments -/

/-- The token of a source that has only one. -/
def Token.only? (source : String) : Option Token :=
  match Token.scan source with
  | .ok [t] => some t
  | _ => none

/-- A source of one token is scanned into that token. -/
theorem Token.scan_of_only? {source : String} {t : Token} (h : Token.only? source = some t) :
    Token.scan source = .ok [t] := by
  unfold only? at h
  split at h
  · next hscan =>
    obtain rfl := Option.some.inj h
    exact hscan
  · cases h

/-- The token of a literal that consists of one segment. -/
structure Token.Alone (code : String) (t : Token) : Prop where
  scan : Token.scan (interpolating [code]) = .ok [t]
  kind : t.kind = .string
  text : t.text = interpolating [code]

/-- The token of a literal that consists of two segments. -/
theorem scan_interpolating_pair {code more : String} {t u : Token} (ht : t.Alone code)
    (hu : u.Alone more)
    (hleans : ∀ v ∈ Token.preorderAll t.nested, v.leans (interpolating [code]) = false) :
    ∃ v, Token.scan (interpolating [code, more]) = .ok [v] ∧ v.kind = .string ∧ v.value = none ∧
      v.nested = t.nested ++ u.nested.map (Token.moved (.ofSegment code)) := by
  have hsource := Text.toList_interpolating [code, more]
  obtain ⟨a, x, hx, hxrest, hxjump, hnested⟩ :=
    body_of_scan (Text.toList_interpolating [code]) ht.scan ht.kind ht.text
  obtain ⟨b, y, hy, hyrest, -, hnested'⟩ :=
    body_of_scan (Text.toList_interpolating [more]) hu.scan hu.kind hu.text
  -- The first segment is read as it is alone, up to the mark that closes the literal there.
  have hleft : x.left = 0 := by rw [Reader.left, Cursor.left_eq_length, ← Reader.rest, hxrest]; rfl
  have hsettled : (Graft.first code more).Settled a.nested := by
    refine .inr ?_
    rw [Graft.donor_first, String.ofList_toList, ← hnested]
    exact hleans
  have hstart := Graft.follows_inside (Graft.donor_first code more) (Graft.host_first code more)
    rfl rfl
  obtain ⟨w, w', hw, hwrest, hwbump, hfirst⟩ :=
    (Graft.mirrorsTokens_tokenAt _).segmentWith.body_swap
      (Quoting.like_atStart _ (interpolating [code, more])) rfl rfl hstart hx hleft hsettled
  -- The second one is read as it is alone from there on.
  have hbehind := hw.second hwrest hwbump hxjump
    (Quoting.unmoved_body (unmoving_segmentWith _) hx)
  obtain ⟨z, hsecond, hz⟩ := ((Graft.mirrorsTokens_tokenAt _).segmentWith.body
    (Quoting.like_atStart _ (interpolating [code, more])) hbehind 0 {}).ok hy (Nat.zero_le _)
      (.inl rfl)
  have hbody : (Quoting.atStart (interpolating [code, more])).body Reader.topSegment 0 {}
      (.inside (interpolating [code, more])) = .ok (a ++ b.moved (.ofSegment code), z) := by
    calc _
      _ = (Quoting.atStart (interpolating [code, more])).body Reader.topSegment 0 (a ++ {}) w' := by
          rw [Quoted.append_empty, ← Quoted.moved_zero a]
          exact hfirst
      _ = (fun x => (a ++ x.1, x.2)) <$> Except.ok (b.moved (.ofSegment code), z) := by
          rw [Quoting.body_append]
          exact congrArg _ hsecond
      _ = _ := rfl
  have hcode : (Reader.inside (interpolating [code])).rest =
      '#' :: '{' :: (code.toList ++ ['}', '"']) := by
    rw [Reader.rest, Reader.cursor_inside, Cursor.rest_place, Text.toList_interpolating]
    simp [Text.segment]
  have hdynamic : (a ++ b.moved (.ofSegment code)).dynamic = true := by
    rw [Quoted.dynamic_append, Quoting.dynamic_of_body hcode rfl hx, Bool.true_or]
  refine ⟨_, scan_of_body hsource hbody hdynamic (hz.rest_eq_nil hyrest), rfl, rfl, ?_⟩
  rw [hnested, hnested']
  rfl

/-- How the code of a literal is parsed that is a source of its own. -/
def Token.statements (t : Token) : Except ParseFailure (List Tree × Progress) :=
  Level.statementLoop ((Level.levelAt (nestingLimit - 3)).expression .statement) .eof []
    (.ofTokens t.nested t.span)

/-- A source of one string is parsed into that string, with what it interpolates. -/
theorem Parsed.ofSource_string {source : String} {t : Token} (hscan : Token.scan source = .ok [t])
    (hkind : t.kind = .string) :
    Parsed.ofSource source =
      match t.statements with
      | .error failure => .error ⟨failure.error, []⟩
      | .ok (trees, inner) =>
        .ok ⟨.ofStatements [⟨.literal (Level.literalOf t), t.span, trees⟩], inner.notes⟩ := by
  rw [Parsed.ofSource, hscan]
  change Parsed.ofTokens [t] = _
  have hlevel : Level.levelAt (nestingLimit - 2) = .above (Level.levelAt (nestingLimit - 3)) := rfl
  rw [Parsed.ofTokens_string hkind, hlevel, Level.interpolated_above, Token.statements]
  generalize Level.statementLoop _ _ _ _ = read
  cases read <;> rfl

/-- A literal that is a source of its own, and is parsed. -/
theorem Parsed.statements_of_string {source : String} {t : Token} {p : Parsed}
    (hscan : Token.scan source = .ok [t]) (hkind : t.kind = .string)
    (h : Parsed.ofSource source = .ok p) :
    ∃ trees inner, t.statements = .ok (trees, inner) ∧
      p.tree.children = [⟨.literal (Level.literalOf t), t.span, trees⟩] := by
  rw [Parsed.ofSource_string hscan hkind] at h
  cases hcode : t.statements with
  | error failure =>
    rw [hcode] at h
    cases h
  | ok read =>
    obtain ⟨trees, inner⟩ := read
    rw [hcode] at h
    obtain rfl := Except.ok.inj h
    exact ⟨trees, inner, rfl, rfl⟩

/-- **Segments that are independent.** If the literals of two segments are each one token and are
parsed, if the tokens of the segments come apart, and if no slash of the first one waits for
another, then the literal of both is parsed too, as one literal, and its children are those of the
first segment, and behind them those of the second, moved by the first. -/
theorem children_interpolating {code more : String} {t u : Token} {p q : Parsed}
    (ht : t.Alone code) (hu : u.Alone more)
    (hp : Parsed.ofSource (interpolating [code]) = .ok p)
    (hq : Parsed.ofSource (interpolating [more]) = .ok q)
    (hapart : Token.apart (Token.significant t.nested) (Token.significant u.nested) = true)
    (hleans : ∀ v ∈ Token.preorderAll t.nested, v.leans (interpolating [code]) = false) :
    ∃ both l₁ l₂ l, p.tree.children = [l₁] ∧ q.tree.children = [l₂] ∧
      Parsed.ofSource (interpolating [code, more]) = .ok both ∧ both.tree.children = [l] ∧
      l.kind = .literal .dynamicString ∧
      l.children = l₁.children ++ l₂.children.map (Tree.moved (.ofSegment code)) := by
  obtain ⟨v, hscan, hkind, hvalue, hnested⟩ := scan_interpolating_pair ht hu hleans
  obtain ⟨a, x, hfirst, hl₁⟩ := Parsed.statements_of_string ht.scan ht.kind hp
  obtain ⟨b, y, hsecond, hl₂⟩ := Parsed.statements_of_string hu.scan hu.kind hq
  obtain ⟨z, hboth⟩ := Level.statementLoop_append (Level.sews_levelAt _) (.ofSegment code) hapart
    hfirst hsecond v.span
  rw [← hnested] at hboth
  have hparsed := Parsed.ofSource_string hscan hkind
  rw [Token.statements, hboth] at hparsed
  refine ⟨_, _, _, _, hl₁, hl₂, hparsed, rfl, ?_, rfl⟩
  rw [Level.literalOf, hkind, hvalue]

/-- A call on two lines, and another one. -/
theorem children_interpolating_calls :
    ∃ t u p q both l₁ l₂ l, Token.Alone "a\n.b" t ∧ Token.Alone "c(1)" u ∧
      Parsed.ofSource (interpolating ["a\n.b"]) = .ok p ∧
      Parsed.ofSource (interpolating ["c(1)"]) = .ok q ∧
      p.tree.children = [l₁] ∧ q.tree.children = [l₂] ∧
      Parsed.ofSource (interpolating ["a\n.b", "c(1)"]) = .ok both ∧ both.tree.children = [l] ∧
      l.kind = .literal .dynamicString ∧
      l.children = l₁.children ++ l₂.children.map (Tree.moved ⟨7, 1, 2⟩) := by
  have htokens : ((Token.only? (interpolating ["a\n.b"])).bind fun t =>
      (Token.only? (interpolating ["c(1)"])).map fun u =>
        ((t.kind, t.text), (u.kind, u.text),
          Token.apart (Token.significant t.nested) (Token.significant u.nested),
          (Token.preorderAll t.nested).all fun v => !v.leans (interpolating ["a\n.b"]))) =
      some ((.string, interpolating ["a\n.b"]), (.string, interpolating ["c(1)"]), true, true) := by
    decide +kernel
  obtain ⟨t, ht, hpair⟩ := Option.bind_eq_some_iff.1 htokens
  obtain ⟨u, hu, hchecks⟩ := Option.map_eq_some_iff.1 hpair
  simp only [Prod.mk.injEq, List.all_eq_true, Bool.not_eq_true'] at hchecks
  obtain ⟨⟨htkind, httext⟩, ⟨hukind, hutext⟩, hapart, hleans⟩ := hchecks
  have ht : Token.Alone "a\n.b" t := ⟨Token.scan_of_only? ht, htkind, httext⟩
  have hu : Token.Alone "c(1)" u := ⟨Token.scan_of_only? hu, hukind, hutext⟩
  obtain ⟨p, hp⟩ : ∃ p, Parsed.ofSource (interpolating ["a\n.b"]) = .ok p :=
    exists_of_isOk (by decide +kernel)
  obtain ⟨q, hq⟩ : ∃ q, Parsed.ofSource (interpolating ["c(1)"]) = .ok q :=
    exists_of_isOk (by decide +kernel)
  obtain ⟨both, l₁, l₂, l, hchildren⟩ := children_interpolating ht hu hp hq hapart hleans
  exact ⟨t, u, p, q, both, l₁, l₂, l, ht, hu, hp, hq, hchildren⟩

/-- An argument behind a name is one in the next segment too. -/
example :
    (Parsed.ofSource (interpolating ["a", " b "])).toOption.map (·.tree.preorder.map Tree.kind) =
      some [.program, .literal .dynamicString, .call "a" false 1 false, .identifier "b"] := by
  decide +kernel

end ConnectorAudit
