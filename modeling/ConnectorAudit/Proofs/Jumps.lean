import ConnectorAudit.Proofs.Reached

/-!
# Jumps over heredocs

A reader that has passed the marker of a heredoc keeps a jump for the end of the
line.  Wherever a scan gets with it, the jump waits just behind the next line feed
and leads forwards, to a place whose line and column are right.  So the text that a
heredoc is cut from is always there, and no token begins inside of a body.

* `Jump.Waits`, `Reader.Reached.waits`: what a jump is like;
* `Reader.Reached.heredocCuts`: the stretches of text that a marker looks at;
* `Reader.At.not_holds_of_mem_trace`: the tokens of a scan begin outside of all bodies, also of
  those that they announce themselves;
* `Reader.jumps_of_scans`: all of it, for every source.
-/

namespace ConnectorAudit

open Text (CutAt)

/-! ## places and stretches -/

/-- The cursor is the place between `lines ++ line` and `after`, where `lines` are whole lines
and `line` is what stands before the cursor on its own line. -/
structure Cursor.Locates (source : String) (lines line after : List Char) (k : Cursor) : Prop where
  toList_eq : source.toList = lines ++ line ++ after
  whole : lines = [] ∨ lines.getLast? = some '\n'
  inline : '\n' ∉ line
  rest_eq : k.rest = after
  offset_eq : k.offset = byteSize (lines ++ line)
  line_eq : k.line = 1 + lines.count '\n'
  lineStart_eq : k.lineStart = byteSize lines
  column_eq : k.column = line.length

/-- A text is whole lines and the beginning of one. -/
theorem Text.exists_lines (before : List Char) :
    ∃ lines line, before = lines ++ line ∧ (lines = [] ∨ lines.getLast? = some '\n') ∧
      '\n' ∉ line ∧ lineBehind before = 1 + lines.count '\n' ∧
      lineStartBehind before = byteSize lines ∧ columnBehind before = line.length := by
  have hsplit : before = (before.reverse.dropWhile (· != '\n')).reverse ++
      (before.reverse.takeWhile (· != '\n')).reverse := by
    rw [← List.reverse_append, List.takeWhile_append_dropWhile, List.reverse_reverse]
  have hline : '\n' ∉ (before.reverse.takeWhile (· != '\n')).reverse := by
    intro hmem
    have hall := List.all_eq_true.1 List.all_takeWhile _ (List.mem_reverse.1 hmem)
    simp at hall
  refine ⟨_, _, hsplit, ?_, hline, ?_, (byteSize_reverse _).symm, (List.length_reverse).symm⟩
  · rw [List.reverse_eq_nil_iff, List.getLast?_reverse]
    have hnot := List.head?_dropWhile_not (· != '\n') before.reverse
    cases hhead : before.reverse.dropWhile (· != '\n') with
    | nil => exact .inl rfl
    | cons c cs =>
      rw [hhead] at hnot
      exact .inr (by simpa using hnot)
  · have hcount := congrArg (List.count '\n') hsplit
    rw [List.count_append, List.count_eq_zero.2 hline, Nat.add_zero] at hcount
    rw [lineBehind, hcount]

/-- Every place is located by the lines before it and its own. -/
theorem Cursor.locates_place (source : String) (i : Nat) :
    ∃ lines line, (place source.toList i).Locates source lines line (source.toList.drop i) := by
  obtain ⟨lines, line, hsplit, hwhole, hline, hlines, hstart, hcolumn⟩ :=
    Text.exists_lines (source.toList.take i)
  refine ⟨lines, line, ?_, hwhole, hline, rfl, ?_, hlines, hstart, hcolumn⟩
  · rw [← hsplit, List.take_append_drop]
  · rw [← hsplit]
    rfl

/-- The bytes from `start` up to `stop` are the text. -/
def Text.Slice (source : String) (start stop : Nat) (text : List Char) : Prop :=
  ∃ before after, source.toList = before ++ text ++ after ∧ byteSize before = start ∧
    byteSize (before ++ text) = stop

/-- The text between two places is a slice of the source. -/
theorem Text.slice_place {source : String} {i j : Nat} (hij : i ≤ j) :
    Slice source (byteAt source.toList i) (byteAt source.toList j)
      ((source.toList.drop i).take (j - i)) := by
  obtain ⟨n, rfl⟩ := Nat.exists_eq_add_of_le hij
  rw [Nat.add_sub_cancel_left]
  refine ⟨source.toList.take i, source.toList.drop (i + n), ?_, rfl, ?_⟩
  · rw [← List.take_add, List.take_append_drop]
  · rw [byteSize_append, byteAt_add]
    rfl

/-! ## what a jump is like -/

/-- The jump waits behind the end of the cursor's line, and leads forwards. -/
structure Jump.Waits (source : String) (k : Cursor) (jump : Jump) : Prop where
  lt_bodyStart : k.offset < jump.bodyStart
  /-- The bodies begin behind the first line feed from the cursor on. -/
  lineEnd : ∃ before line after, CutAt source k.offset before (line ++ '\n' :: after) ∧
    k.rest = line ++ '\n' :: after ∧ '\n' ∉ line ∧
    CutAt source jump.bodyStart (before ++ line ++ ['\n']) after
  bodyStart_lt : jump.bodyStart < jump.resume.offset
  resume_le : jump.resume.offset ≤ source.utf8ByteSize
  resume : ∃ lines line after, jump.resume.Locates source lines line after

/-- A line from somewhere up to its end. -/
theorem exists_line {cs : List Char} {i line : Nat} (hi : i < line)
    (hfeed : cs[line - 1]? = some '\n') (hno : ∀ x, i ≤ x → x + 1 < line → cs[x]? ≠ some '\n') :
    ∃ text, cs.drop i = text ++ '\n' :: cs.drop line ∧ '\n' ∉ text ∧
      cs.take line = cs.take i ++ text ++ ['\n'] := by
  obtain ⟨n, rfl⟩ := Nat.exists_eq_add_of_lt hi
  rw [Nat.add_sub_cancel] at hfeed
  obtain ⟨hlt, hget⟩ := List.getElem?_eq_some_iff.1 hfeed
  refine ⟨(cs.drop i).take n, ?_, ?_, ?_⟩
  · rw [← hget, ← List.drop_eq_getElem_cons hlt, ← List.drop_drop, List.take_append_drop]
  · intro hmem
    obtain ⟨x, hx, hxfeed⟩ := List.getElem_of_mem hmem
    have hxn : x < n := Nat.lt_of_lt_of_le hx (List.length_take_le n _)
    refine hno (i + x) (Nat.le_add_right i x) (by omega) ?_
    rw [← List.getElem?_drop, ← List.getElem?_take_of_lt hxn, List.getElem?_eq_getElem hx, hxfeed]
  · rw [List.take_succ_eq_append_getElem hlt, hget, List.take_add]

namespace Reader

variable {source : String} {h : Heredocs} {i : Nat} {r s : Reader} {m : Marker}

/-- The jump of a reader waits for it, wherever the reader gets. -/
theorem Reached.waits (hr : r.Reached source) {jump : Jump} (hjump : r.jump = some jump) :
    jump.Waits source r.cursor := by
  rcases hr.standsSomewhere with ⟨i, hstands⟩ | ⟨-, -, hnone⟩
  · obtain ⟨h, hat⟩ := hstands.exists_at
    obtain ⟨line, resume, hstart, hresume, hi, hlr, hlen, hfeed, hno⟩ := hat.awaits jump hjump
    obtain ⟨text, hrest, htext, htake⟩ := exists_line hi hfeed hno
    obtain ⟨lines, behind, hlocates⟩ := Cursor.locates_place source resume
    refine ⟨?_, ⟨source.toList.take i, text, source.toList.drop line, ⟨?_, ?_⟩, ?_, htext,
      ⟨?_, ?_⟩⟩, (hstands.ahead hjump).1, ?_, lines, behind, _, hresume ▸ hlocates⟩
    · rw [hat.cursor_eq, hstart, Cursor.offset_place]
      exact byteAt_lt hi (by omega)
    · rw [← hrest, List.take_append_drop]
    · rw [hat.cursor_eq, Cursor.offset_place, byteAt]
    · rw [← hrest]
      exact hat.rest_eq
    · rw [← htake, List.take_append_drop]
    · rw [← htake, hstart, byteAt]
    · rw [hresume, Cursor.offset_place, utf8ByteSize_eq, ← byteAt_length]
      exact byteAt_le hlen
  · rw [hnone] at hjump
    cases hjump

end Reader

/-! ## the text of a heredoc -/

/-- The beginning of a line from `start` on, the place itself included. -/
inductive Cursor.LineFrom (start : Cursor) : Cursor → Prop
  | here : LineFrom start start
  | next {k l : Cursor} {c : Char} (hk : LineFrom start k)
      (hnext : (k.skipWhile (· != '\n')).next? = some (c, l)) : LineFrom start l

/-- The beginning of a line is a place. -/
theorem Cursor.LineFrom.exists_place {cs : List Char} {i : Nat} (hi : i ≤ cs.length) {k : Cursor}
    (h : LineFrom (place cs i) k) : ∃ j, j ≤ cs.length ∧ k = place cs j := by
  induction h with
  | here => exact ⟨i, hi, rfl⟩
  | next _ hnext ih =>
    obtain ⟨j, -, rfl⟩ := ih
    rw [skipWhile, advance_place] at hnext
    obtain ⟨hc, rfl⟩ := next?_place_eq_some hnext
    exact ⟨_, (List.getElem?_eq_some_iff.1 hc).1, rfl⟩

namespace Reader

/-- The text that is looked at for the heredoc of a marker is all there: the marker, the lines
from the beginning of the body on, and, if the body ends, the body and all up to behind its
closing line. -/
structure HeredocCuts (source : String) (r : Reader) (m : Marker) : Prop where
  marker : Text.Slice source r.cursor.offset (r.advance m.length).cursor.offset
    (r.rest.take m.length)
  start : ∀ {start}, (r.advance m.length).bodyStart? = some start →
    (r.advance m.length).cursor.offset < start.offset
  line : ∀ {start k}, (r.advance m.length).bodyStart? = some start → start.LineFrom k →
    Text.Slice source k.offset source.utf8ByteSize k.rest ∧
      Text.Slice source k.offset (k.skipWhile (· != '\n')).offset (k.rest.takeWhile (· != '\n'))
  body : ∀ {start stop resume}, (r.advance m.length).bodyStart? = some start →
    m.bodyEnd? start = some (stop, resume) →
    Text.Slice source start.offset stop.offset (start.textTo stop).toList ∧
      stop.offset < resume.offset ∧
      (∃ skipped, Text.Slice source (r.advance m.length).cursor.offset resume.offset skipped) ∧
      ∃ lines line after, resume.Locates source lines line after

variable {source : String} {i : Nat} {r : Reader} {m : Marker}

/-- A heredoc whose marker stands here is cut out of the source. -/
theorem Stands.heredocCuts (hr : r.Stands source i) (hm : Marker.ofChars? r.rest = some m) :
    r.HeredocCuts source m := by
  obtain ⟨hterm, -, hline, -⟩ := Marker.ofChars?_eq_some hm
  obtain ⟨h, hat⟩ := hr.exists_at
  have hbehind := hat.advance hline
  have hle := hat.le_length
  generalize hj : min (i + m.length) source.toList.length = j at hbehind
  have hplace : (r.advance m.length).cursor.offset = byteAt source.toList j := by
    rw [hbehind.cursor_eq, Cursor.offset_place]
  refine ⟨?_, fun {start} hstart => ?_, fun {start k} hstart hk => ?_,
    fun {start stop resume} hstart hend => ?_⟩
  · have htext : r.rest.take m.length = (source.toList.drop i).take (j - i) := by
      rw [hat.rest_eq, List.take_eq_take_iff, List.length_drop]
      omega
    rw [hplace, hat.cursor_eq, Cursor.offset_place, htext]
    exact Text.slice_place (by omega)
  · obtain ⟨line, k, rfl, -, hjl, hlk, hk, -⟩ := hbehind.bodyStart? hstart
    rw [hplace, Cursor.offset_place]
    exact byteAt_lt (by omega) hk
  · obtain ⟨line, k, rfl, -, hjl, hlk, hk', -⟩ := hbehind.bodyStart? hstart
    obtain ⟨l, hl, rfl⟩ := hk.exists_place hk'
    constructor
    · have hrest : source.toList.drop l =
          (source.toList.drop l).take (source.toList.length - l) := by
        rw [← List.length_drop, List.take_length]
      rw [utf8ByteSize_eq, ← byteAt_length, Cursor.offset_place, Cursor.rest_place, hrest]
      exact Text.slice_place hl
    · have htext : (source.toList.drop l).takeWhile (· != '\n') = (source.toList.drop l).take
          (l + ((source.toList.drop l).takeWhile (· != '\n')).length - l) := by
        rw [Nat.add_sub_cancel_left]
        exact List.prefix_iff_eq_take.1 (List.takeWhile_prefix _)
      rw [Cursor.skipWhile, Cursor.advance_place, Cursor.offset_place, Cursor.offset_place,
        Cursor.rest_place]
      nth_rewrite 2 [htext]
      exact Text.slice_place (Nat.le_add_right _ _)
  · obtain ⟨line, k, rfl, -, hjl, hlk, hk, -⟩ := hbehind.bodyStart? hstart
    obtain ⟨a, b, rfl, rfl, hka, hab, hb⟩ := Marker.bodyEnd?_place hterm hk hend
    refine ⟨?_, byteAt_lt hab hb, ⟨(source.toList.drop j).take (b - j), ?_⟩, ?_⟩
    · rw [Cursor.textTo_place hka, String.toList_ofList]
      exact Text.slice_place hka
    · rw [hplace]
      exact Text.slice_place (by omega)
    · obtain ⟨lines, behind, hlocates⟩ := Cursor.locates_place source b
      exact ⟨lines, behind, _, hlocates⟩

/-- A heredoc whose marker is reached is cut out of the source. -/
theorem Reached.heredocCuts (hr : r.Reached source) (hm : Marker.ofChars? r.rest = some m) :
    r.HeredocCuts source m := by
  rcases hr.standsSomewhere with ⟨i, hstands⟩ | ⟨hnil, -, -⟩
  · exact hstands.heredocCuts hm
  · rw [hnil] at hm
    cases hm

end Reader

/-! ## tokens and bodies -/

theorem Cursor.offset_le_advance (k : Cursor) (n : Nat) : k.offset ≤ (k.advance n).offset := by
  induction n generalizing k with
  | zero => exact Nat.le_refl _
  | succ n ih =>
    unfold advance
    split
    · exact Nat.le_refl _
    · next c l hnext =>
      have hoffset := (next?_eq_some hnext).2
      have hle := ih l
      omega

/-- A body does not end before it begins. -/
theorem Marker.offset_le_bodyEnd? {m : Marker} {k stop resume : Cursor}
    (h : m.bodyEnd? k = some (stop, resume)) : k.offset ≤ resume.offset := by
  fun_induction Marker.bodyEnd? m k with
  | case1 k line lineEnd =>
    obtain ⟨-, rfl⟩ := Prod.mk.inj (Option.some.inj h)
    exact k.offset_le_advance line.length
  | case2 => cases h
  | case3 k line lineEnd c next hnext =>
    obtain ⟨-, rfl⟩ := Prod.mk.inj (Option.some.inj h)
    have hle : k.offset ≤ lineEnd.offset := k.offset_le_advance line.length
    have hoffset := (Cursor.next?_eq_some hnext).2
    omega
  | case4 k line lineEnd c next hnext _ _ _ ih =>
    have hle : k.offset ≤ lineEnd.offset := k.offset_le_advance line.length
    have hoffset := (Cursor.next?_eq_some hnext).2
    have hle' := ih h
    omega

namespace Heredocs

variable {source : String} {h : Heredocs}

/-- The jump over the bodies that wait leads forwards. -/
def Forward (h : Heredocs) : Prop :=
  ∀ jump, h.pending = some jump → jump.bodyStart ≤ jump.resume.offset

/-- A body begins behind the marker. -/
theorem offset_lt_start? (hf : h.Forward) {k start : Cursor} (hstart : h.start? k = some start) :
    k.offset < start.offset := by
  unfold start? at hstart
  split at hstart
  · next jump hwaiting =>
    obtain rfl := Option.some.inj hstart
    obtain ⟨hpending, hlt⟩ := waiting_eq_some_iff.1 hwaiting
    exact Nat.lt_of_lt_of_le hlt (hf jump hpending)
  · obtain ⟨⟨c, l⟩, hnext, rfl⟩ := Option.map_eq_some_iff.1 hstart
    have hle := k.offset_le_advance (k.rest.takeWhile (· != '\n')).length
    have hoffset := (Cursor.next?_eq_some hnext).2
    have hpos := c.utf8Size_pos
    rw [Cursor.skipWhile] at hoffset
    change k.offset < l.offset
    omega

/-- A marker announces a body that begins behind it. -/
theorem Forward.announce (hf : h.Forward) (m : Marker) (k : Cursor) :
    (h.announce m k).Forward ∧ ∀ b ∈ (h.announce m k).bodies, b ∈ h.bodies ∨ k.offset < b.1 := by
  unfold Heredocs.announce
  split
  · exact ⟨hf, fun b hb => .inl hb⟩
  · next start hstart =>
    split
    · exact ⟨hf, fun b hb => .inl hb⟩
    · next stop resume hend =>
      have hlt := offset_lt_start? hf hstart
      have hle := Marker.offset_le_bodyEnd? hend
      refine ⟨fun jump hjump => ?_, fun b hb => ?_⟩
      · obtain rfl := Option.some.inj hjump
        unfold start? at hstart
        cases hwaiting : h.waiting k.offset with
        | none => exact hle
        | some jump =>
          rw [hwaiting] at hstart
          obtain rfl := Option.some.inj hstart
          exact Nat.le_trans (hf jump (waiting_eq_some_iff.1 hwaiting).1) hle
      · rcases List.mem_append.1 hb with hb | hb
        · exact .inl hb
        · obtain rfl := List.mem_singleton.1 hb
          exact .inr hlt

/-- A token more leads forwards, and its bodies are behind it. -/
theorem Forward.add (hf : h.Forward) (u : Token) :
    (h.add source u).Forward ∧ ∀ b ∈ (h.add source u).bodies, b ∈ h.bodies ∨ u.stop < b.1 := by
  unfold Heredocs.add
  split
  · next m k hm hk =>
    obtain ⟨before, after, hcut, rfl⟩ := Cursor.at?_eq_some_iff.1 hk
    have hstop : (Cursor.place source.toList before.length).offset = u.stop := hcut.byteAt_eq
    exact hstop ▸ hf.announce m (.place source.toList before.length)
  · exact ⟨hf, fun b hb => .inl hb⟩

/-- Tokens announce bodies that begin behind them. -/
theorem Forward.addAll (hf : h.Forward) {x : Nat} {ts : List Token}
    (hts : ∀ u ∈ Token.preorderAll ts, x ≤ u.stop) :
    (h.addAll source ts).Forward ∧ ∀ b ∈ (h.addAll source ts).bodies, b ∈ h.bodies ∨ x < b.1 := by
  unfold Heredocs.addAll
  generalize Token.preorderAll ts = us at hts
  induction us generalizing h with
  | nil => exact ⟨hf, fun b hb => .inl hb⟩
  | cons u us ih =>
    obtain ⟨hu, hus⟩ := List.forall_mem_cons.1 hts
    obtain ⟨hforward, hadded⟩ := hf.add u
    obtain ⟨hforward', hadded'⟩ := ih hforward hus
    refine ⟨hforward', fun b hb => ?_⟩
    rcases hadded' b hb with hb | hb
    · exact (hadded b hb).imp_right (Nat.lt_of_le_of_lt hu)
    · exact .inr hb

end Heredocs

/-- A nested token belongs to one of the tokens. -/
theorem Token.mem_preorderAll {u : Token} {ts : List Token} :
    u ∈ preorderAll ts ↔ ∃ t ∈ ts, u ∈ t.preorder := by
  induction ts with
  | nil => simp [preorderAll]
  | cons t ts ih => simp [preorderAll, ih]

/-- No token below another begins before it. -/
theorem Token.Placed.offset_le {source : String} {t : Token} (h : t.Placed source) :
    ∀ u ∈ t.preorder, t.offset ≤ u.offset := by
  induction h with
  | intro t _ _ inside _ _ ih =>
    intro u hu
    rw [preorder_eq] at hu
    rcases List.mem_cons.1 hu with rfl | hu
    · exact Nat.le_refl _
    · obtain ⟨n, hn, hu⟩ := mem_preorderAll.1 hu
      exact Nat.le_trans (Nat.le_of_lt (inside n hn).1) (ih n hn u hu)

namespace Reader.At

variable {source : String} {h : Heredocs} {i : Nat} {r s : Reader}

/-- A step reads a token that begins outside of the bodies announced before it. -/
theorem exists_reads_step (hr : r.At source h i) {t : Token}
    (hstep : r.step = .token t s ∨ ∃ f, r.step = .fault f t s) :
    ∃ p, i ≤ p ∧ ¬h.Holds (byteAt source.toList p) ∧ Reads source h p t s := by
  rcases hstep with hstep | ⟨f, hstep⟩
  · obtain ⟨-, gap, u, v, hskip, hne, hread, rfl⟩ := step_eq_token hstep
    obtain ⟨p, hip, hu, -⟩ := hr.skipTrivia_of_rest hskip hne
    have ht := tokenReads_tokenAt source interpolationLimit h p gap u t v hu hread
    exact ⟨p, hip, hu.not_holds, ht.congr (cursor_note v t) (jump_note v t)⟩
  · obtain ⟨-, gap, u, ended, hskip, hne, rfl, rfl⟩ := step_eq_fault hstep
    obtain ⟨p, hip, hu, -⟩ := hr.skipTrivia_of_rest hskip hne
    have hu' : { u with ended }.At source h p := hu.congr rfl rfl
    exact ⟨p, hip, hu.not_holds, (hu'.stray hne gap).congr (cursor_note _ _) (jump_note _ _)⟩

/-- The first token of a trace is what the next step reads, and the rest is read behind it. -/
theorem trace_cons (hr : r.At source h i) {e : Token × Option Fault}
    {rest : List (Token × Option Fault)} (htrace : r.trace = e :: rest) :
    ∃ s, (r.step = .token e.1 s ∨ ∃ f, r.step = .fault f e.1 s) ∧ s.trace = rest ∧
      ∃ j, s.At source (h.addAll source [e.1]) j := by
  rcases r.trace_cases with hnil | ⟨d, s, hstep, hcons⟩
  · rw [hnil] at htrace
    cases htrace
  · obtain ⟨rfl, rfl⟩ := List.cons.inj (hcons.symm.trans htrace)
    obtain ⟨p, -, -, ht⟩ := hr.exists_reads_step hstep
    obtain ⟨j, -, -, hs⟩ := ht.behind
    exact ⟨s, hstep, rfl, j, hs⟩

/-- Wherever a trace is cut, a reader stands there and reads the rest. -/
theorem trace_append (hr : r.At source h i) {front rest : List (Token × Option Fault)}
    (htrace : r.trace = front ++ rest) :
    ∃ u : Reader, u.trace = rest ∧ ∃ j, u.At source (h.addAll source (front.map Prod.fst)) j := by
  induction front generalizing h i r with
  | nil => exact ⟨r, htrace, i, hr⟩
  | cons e front ih =>
    obtain ⟨s, -, hrest, j, hs⟩ := hr.trace_cons htrace
    obtain ⟨u, hu, k, hat⟩ := ih hs hrest
    refine ⟨u, hu, k, ?_⟩
    rw [List.map_cons, ← List.singleton_append, Heredocs.addAll_append]
    exact hat

/-- Every token of a scan is placed in the source. -/
theorem placed_of_mem_trace (hr : r.At source h i) {e : Token × Option Fault} (he : e ∈ r.trace) :
    e.1.Placed source := by
  obtain ⟨front, rest, htrace⟩ := List.append_of_mem he
  obtain ⟨u, hrest, j, hu⟩ := hr.trace_append htrace
  obtain ⟨s, hstep, -⟩ := hu.trace_cons hrest
  obtain ⟨p, -, -, ht⟩ := hu.exists_reads_step hstep
  exact ht.placed

/-- A token begins outside of the bodies announced before it, and before those that it announces
itself or the tokens behind it do. -/
theorem not_holds_of_trace_cons (hr : r.At source h i) (hf : h.Forward)
    {e : Token × Option Fault} {rest : List (Token × Option Fault)} (htrace : r.trace = e :: rest) :
    ¬(h.addAll source ((e :: rest).map Prod.fst)).Holds e.1.offset := by
  obtain ⟨s, hstep, rfl, -⟩ := hr.trace_cons htrace
  obtain ⟨p, -, hnot, ht⟩ := hr.exists_reads_step hstep
  obtain ⟨j, hpj, -, hs⟩ := ht.behind
  have hstop : ∀ u ∈ Token.preorderAll ((e :: s.trace).map Prod.fst), e.1.offset ≤ u.stop := by
    intro u hu
    refine Nat.le_trans ?_ (Nat.le_add_right u.offset _)
    obtain ⟨v, hv, huv⟩ := Token.mem_preorderAll.1 hu
    rcases List.mem_cons.1 hv with rfl | hv
    · exact ht.placed.offset_le u huv
    · obtain ⟨d, hd, rfl⟩ := List.mem_map.1 hv
      calc
        e.1.offset = byteAt source.toList p := ht.offset_eq
        _ ≤ byteAt source.toList j := byteAt_le (Nat.le_of_lt hpj)
        _ ≤ d.1.offset := hs.offset_le_of_mem_trace hd
        _ ≤ u.offset := (hs.placed_of_mem_trace hd).offset_le u huv
  rintro ⟨b, hb, hlo, hhi⟩
  rcases (hf.addAll hstop).2 b hb with hold | hnew
  · exact hnot ⟨b, hold, ht.offset_eq ▸ hlo, ht.offset_eq ▸ hhi⟩
  · omega

/-- No token of a scan begins within a body. -/
theorem not_holds_of_mem_trace (hr : r.At source h i) (hf : h.Forward)
    {e : Token × Option Fault} (he : e ∈ r.trace) :
    ¬(h.addAll source (r.trace.map Prod.fst)).Holds e.1.offset := by
  obtain ⟨front, rest, htrace⟩ := List.append_of_mem he
  obtain ⟨u, hrest, j, hu⟩ := hr.trace_append htrace
  have hforward : (h.addAll source (front.map Prod.fst)).Forward :=
    (hf.addAll fun u _ => Nat.zero_le u.stop).1
  rw [htrace, List.map_append, Heredocs.addAll_append]
  exact hu.not_holds_of_trace_cons hforward hrest

end Reader.At

/-- The tokens of a scan from any place begin outside of the bodies that they announce. -/
theorem Token.not_holds_of_mem_scanLossyFrom {source : String} {start : Nat} {k : Cursor}
    (hk : Cursor.at? source start = some k) {t : Token} (ht : t ∈ (scanLossyFrom k).1) :
    ¬(Heredocs.ofTokens source (scanLossyFrom k).1).Holds t.offset := by
  obtain ⟨before, after, hcut, rfl⟩ := Cursor.at?_eq_some_iff.1 hk
  have hat := Reader.at_ofCursor hcut.length_le
  rw [scanLossyFrom, Reader.lossyFrom_eq, List.reverse_nil, List.nil_append] at ht ⊢
  obtain ⟨e, he, rfl⟩ := List.mem_map.1 ht
  exact hat.not_holds_of_mem_trace (fun _ hjump => by cases hjump) he

/-- A scan that succeeds has the tokens of one that notes its faults. -/
theorem Token.scanLossyFrom_of_scan {source : String} {tokens : List Token}
    (hok : scan source = .ok tokens) : (scanLossyFrom (.ofSource source)).1 = tokens := by
  change (scanLossy source).1 = tokens
  rw [scanLossy_eq]
  rw [scan_eq] at hok
  split at hok
  · exact Except.ok.inj hok
  · cases hok

/-- No token of a source that is scanned begins within a body. -/
theorem Token.not_holds_of_mem_scan {source : String} {tokens : List Token}
    (hok : scan source = .ok tokens) {t : Token} (ht : t ∈ tokens) :
    ¬(Heredocs.ofTokens source tokens).Holds t.offset := by
  have hstart : Cursor.at? source 0 = some (.ofSource source) :=
    Cursor.at?_place (Nat.zero_le _)
  rw [← scanLossyFrom_of_scan hok] at ht ⊢
  exact not_holds_of_mem_scanLossyFrom hstart ht

namespace Reader

/-- **Jumps.** A scan of the source, from any byte of it, stays among the readers that are reached.
The jump of any of those waits just behind the next line feed and leads forwards, to a place of the
source.  So the text that is looked at for a heredoc is there, whichever marker announces it, and
no token of a scan begins inside of the body of a heredoc. -/
theorem jumps_of_scans (source : String) :
    (∀ start k, Cursor.at? source start = some k → (ofCursor k).Reached source) ∧
      KeptByScans (Reached source) ∧
      (∀ r jump, Reached source r → r.jump = some jump → jump.Waits source r.cursor) ∧
      (∀ r m, Reached source r → Marker.ofChars? r.rest = some m → r.HeredocCuts source m) ∧
      (∀ start k, Cursor.at? source start = some k → ∀ t ∈ (Token.scanLossyFrom k).1,
        ¬(Heredocs.ofTokens source (Token.scanLossyFrom k).1).Holds t.offset) ∧
      ∀ tokens, Token.scan source = .ok tokens →
        ∀ t ∈ tokens, ¬(Heredocs.ofTokens source tokens).Holds t.offset :=
  ⟨fun _ _ => reached_ofCursor, keptByScans_reached source, fun _ _ hr => hr.waits,
    fun _ _ hr => hr.heredocCuts, fun _ _ hk _ => Token.not_holds_of_mem_scanLossyFrom hk,
    fun _ hok _ => Token.not_holds_of_mem_scan hok⟩

/-- Two heredocs on a line, with a token behind them. -/
def twoHeredocs : String := "<<A+<<B\na\nA\nb\nB\nc"

theorem jumps_of_twoHeredocs :
    (∃ r jump, Reached twoHeredocs r ∧ r.jump = some jump ∧ jump.Waits twoHeredocs r.cursor) ∧
      (Token.scanLossyFrom (.ofSource twoHeredocs)).1.map Token.offset = [0, 3, 4, 16] ∧
      (Heredocs.ofTokens twoHeredocs (Token.scanLossyFrom (.ofSource twoHeredocs)).1).bodies =
        [(8, 12), (12, 16)] ∧
      ∀ t ∈ (Token.scanLossyFrom (.ofSource twoHeredocs)).1,
        ¬(Heredocs.ofTokens twoHeredocs (Token.scanLossyFrom (.ofSource twoHeredocs)).1).Holds
          t.offset := by
  obtain ⟨hreached, hkept, hwaits, -, hlossy, -⟩ := jumps_of_scans twoHeredocs
  have hstart : Cursor.at? twoHeredocs 0 = some (.ofSource twoHeredocs) :=
    Cursor.at?_place (Nat.zero_le _)
  have hjump : Step.casesOn (motive := fun _ => Bool) (ofCursor (.ofSource twoHeredocs)).step false
      (fun _ s => s.jump.isSome) (fun _ _ s => s.jump.isSome) = true := by
    decide +kernel
  refine ⟨?_, by decide +kernel, by decide +kernel, hlossy 0 _ hstart⟩
  cases hstep : (ofCursor (.ofSource twoHeredocs)).step with
  | done =>
    rw [hstep] at hjump
    cases hjump
  | token t s =>
    rw [hstep] at hjump
    obtain ⟨jump, hsome⟩ := Option.isSome_iff_exists.1 hjump
    have hs := hkept.step (hreached 0 _ hstart) (.inl ⟨t, hstep⟩)
    exact ⟨s, jump, hs, hsome, hwaits s jump hs hsome⟩
  | fault f t s =>
    rw [hstep] at hjump
    obtain ⟨jump, hsome⟩ := Option.isSome_iff_exists.1 hjump
    have hs := hkept.step (hreached 0 _ hstart) (.inr ⟨f, t, hstep⟩)
    exact ⟨s, jump, hs, hsome, hwaits s jump hs hsome⟩

end Reader

end ConnectorAudit
