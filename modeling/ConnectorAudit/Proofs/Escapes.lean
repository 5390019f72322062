import ConnectorAudit.Proofs.Spellings

/-!
# Written strings

Three ways to write a text as a string, each with a backslash before the
characters that its literal would not take for themselves.  All of them are read
back, whatever the text is.

* `Quoting.Denotes.escape`: a body with enough backslashes denotes the text;
* `Reader.tokenAt_percent`: a percent literal without code, read at any place;
* `Token.scan_write`: a source that is a written text is one string with the text for its value.
-/

namespace ConnectorAudit

/-! ## escapes -/

/-- The characters, with a backslash before each special one. -/
def escape (special : List Char) (cs : List Char) : List Char :=
  cs.flatMap fun c => if special.contains c then ['\\', c] else [c]

/-- An escaped text denotes the text, if a backslash changes no special character and every other
one stands for itself. -/
theorem Quoting.Denotes.escape {q : Quoting} {special : List Char}
    (hspecial : ∀ c ∈ special, ∀ body, Quoted.pushEscaped q body c = body.push c)
    (hplain : ∀ c ∉ special, q.isPlain c = true) (cs : List Char) :
    q.Denotes (escape special cs) cs := by
  induction cs with
  | nil => exact .nil
  | cons c cs ih =>
    rw [ConnectorAudit.escape, List.flatMap_cons]
    by_cases hc : c ∈ special
    · rw [if_pos (List.contains_iff_mem.2 hc)]
      exact .escaped (hspecial c hc) ih
    · rw [if_neg fun h => hc (List.contains_iff_mem.1 h)]
      exact .plain (hplain c hc) ih

/-! ## percent literals -/

namespace PercentHead

/-- The head `%q(`. -/
def verbatim : PercentHead := ⟨'q', '(', 3⟩

theorem ofChars?_verbatim (cs : List Char) :
    ofChars? ('%' :: 'q' :: '(' :: cs) = some verbatim := by
  have hother : isAlphanumeric '(' = false ∧ isBlank '(' = false := by decide +kernel
  simp [ofChars?, hother, verbatim]

end PercentHead

namespace Reader

variable {before after : List Char} {m : Memory}

/-- A percent literal stands for what its body denotes, where a value is expected. -/
theorem tokenAt_percent {cs ds : List Char}
    (h : ∀ start, (PercentHead.verbatim.quoting start).Denotes cs ds) (hm : m.previous = none)
    (levels : Nat) (gap : Gap) :
    tokenAt levels gap (behind before ('%' :: 'q' :: '(' :: (cs ++ [')']) ++ after) m) =
      .ok (⟨.string, String.ofList ('%' :: 'q' :: '(' :: (cs ++ [')'])), byteSize before,
        Text.lineBehind before, Text.columnBehind before, some (String.ofList ds), [], gap⟩,
        behind (before ++ '%' :: 'q' :: '(' :: (cs ++ [')'])) after m) := by
  obtain ⟨segment, hsegment⟩ := exists_tokenAt_eq levels
  have hadvance : (behind before ('%' :: 'q' :: '(' :: (cs ++ [')']) ++ after) m).advance 3 =
      behind (before ++ ['%', 'q', '(']) (cs ++ ')' :: after) m := by
    have hhead : (behind before (['%', 'q', '('] ++ (cs ++ ')' :: after)) m).advance 3 = _ :=
      advance_behind ['%', 'q', '(']
    simpa using hhead
  have hexpected :
      (behind before ('%' :: 'q' :: '(' :: (cs ++ [')']) ++ after) m).valueExpected = true := by
    rw [valueExpected, behind, hm]
  have hpercent : tokenWith segment gap
      (behind before ('%' :: 'q' :: '(' :: (cs ++ [')']) ++ after) m) =
        (behind before ('%' :: 'q' :: '(' :: (cs ++ [')']) ++ after) m).percent segment gap
          .verbatim := by
    rw [tokenWith, rest_behind]
    simp only [List.cons_append, PercentHead.ofChars?_verbatim] at hexpected ⊢
    rw [hexpected]
    rfl
  have hcloser : ')' ≠ '\\' ∧ ')' ≠ '#' ∧ some '(' ≠ some ')' := by decide
  have hbody : ∀ start, (PercentHead.verbatim.quoting start).body segment 0 {}
      (behind (before ++ ['%', 'q', '(']) (cs ++ ')' :: after) m) =
        .ok ({ cooked := "" ++ String.ofList ds },
          behind (before ++ '%' :: 'q' :: '(' :: (cs ++ [')'])) after m) := by
    intro start
    have hend : before ++ ['%', 'q', '('] ++ cs ++ [')'] =
        before ++ '%' :: 'q' :: '(' :: (cs ++ [')']) := by simp
    rw [← hend]
    exact body_behind hcloser segment (h start) {}
  have hlength : PercentHead.verbatim.length = 3 := rfl
  have hkind : PercentHead.verbatim.kind = .string := rfl
  have hvalue : ∀ body, PercentHead.verbatim.value body = body.value := fun _ => rfl
  rw [hsegment, hpercent, percent, hlength, hadvance, hbody]
  simp only [bind, Except.bind, hkind, hvalue, reduceCtorEq, if_false]
  rw [between_behind]
  simp [Quoted.value, pure, Except.pure]

end Reader

/-! ## whole texts -/

/-- A way to write a text as a string. -/
inductive QuoteForm where
  /-- `'…'` -/
  | single
  /-- `"…"` -/
  | double
  /-- `%q(…)` -/
  | percent
  deriving DecidableEq, Repr

namespace QuoteForm

def opening : QuoteForm → List Char
  | single => ['\'']
  | double => ['"']
  | percent => ['%', 'q', '(']

def closing : QuoteForm → Char
  | single => '\''
  | double => '"'
  | percent => ')'

/-- The characters that need a backslash. -/
def special : QuoteForm → List Char
  | single => ['\\', '\'']
  | double => ['\\', '"', '#']
  | percent => ['\\', '(', ')']

/-- The text, written as a string. -/
def write (form : QuoteForm) (s : String) : String :=
  String.ofList (form.opening ++ (escape form.special s.toList ++ [form.closing]))

example : percent.write "f(x)\\n" = "%q(f\\(x\\)\\\\n)" := by decide

/-- The first character of a written text begins a token. -/
theorem startsToken_write (form : QuoteForm) (s : String) :
    Reader.startsToken (form.write s).toList = true := by
  rw [write, String.toList_ofList]
  cases form <;> exact Reader.startsToken_cons (by decide) _

/-- How a written body is read. -/
def quoting (start : Cursor) : QuoteForm → Quoting
  | single => Reader.quotingOf '\'' start
  | double => Reader.quotingOf '"' start
  | percent => PercentHead.verbatim.quoting start

variable {form : QuoteForm} {c : Char} (start : Cursor)

/-- A backslash before a special character leaves it as it is. -/
theorem pushEscaped_of_mem_special (hc : c ∈ form.special) (body : Quoted) :
    Quoted.pushEscaped (form.quoting start) body c = body.push c := by
  rw [Quoted.pushEscaped]
  cases form with
  | single =>
    have hescaped : c = '\'' ∨ c = '\\' := (List.mem_pair.1 hc).symm
    simp [quoting, Reader.quotingOf, hescaped]
  | double =>
    have hsame : unescape c = c := by
      have hc : c = '\\' ∨ c = '"' ∨ c = '#' := by simpa [special] using hc
      rcases hc with rfl | rfl | rfl <;> rfl
    rw [hsame]
    rfl
  | percent =>
    have hescaped : c = ')' ∨ c = '\\' ∨ some c = some '(' := by
      have hc : c = '\\' ∨ c = '(' ∨ c = ')' := by simpa [special] using hc
      rcases hc with rfl | rfl | rfl <;> simp
    exact if_pos hescaped

/-- All other characters stand for themselves. -/
theorem isPlain_of_not_mem_special (hc : c ∉ form.special) :
    (form.quoting start).isPlain c = true := by
  cases form with
  | single =>
    have hne : c ≠ '\\' ∧ c ≠ '\'' := by simpa [special] using hc
    simp [Quoting.isPlain, quoting, Reader.quotingOf, hne]
  | double =>
    have hne : c ≠ '\\' ∧ c ≠ '"' ∧ c ≠ '#' := by simpa [special] using hc
    simp [Quoting.isPlain, quoting, Reader.quotingOf, hne]
  | percent =>
    have hne : c ≠ '\\' ∧ c ≠ '(' ∧ c ≠ ')' := by simpa [special] using hc
    have hopener : some '(' ≠ some c := by simpa using Ne.symm hne.2.1
    have hplain : (c != '\\' && c != ')' && some '(' != some c && !(false && c == '#')) = true := by
      simp [hne, hopener]
    exact hplain

/-- The escaped form of a text denotes the text. -/
theorem denotes_escape (form : QuoteForm) (cs : List Char) (start : Cursor) :
    (form.quoting start).Denotes (escape form.special cs) cs :=
  .escape (fun _ hc => pushEscaped_of_mem_special start hc)
    (fun _ hc => isPlain_of_not_mem_special start hc) cs

variable {before after : List Char} {m : Reader.Memory}

/-- A written text is read as one string, where a value is expected and no colon follows. -/
theorem tokenAt_write (form : QuoteForm) (s : String) (hm : m.previous = none)
    (hcolon : labelColon after = false) (levels : Nat) (gap : Gap) :
    Reader.tokenAt levels gap (.behind before ((form.write s).toList ++ after) m) =
      .ok (⟨.string, form.write s, byteSize before, Text.lineBehind before,
        Text.columnBehind before, some s, [], gap⟩,
        .behind (before ++ (form.write s).toList) after m) := by
  obtain ⟨cs, rfl⟩ : ∃ cs, s = String.ofList cs := ⟨s.toList, String.ofList_toList.symm⟩
  simp only [write, String.toList_ofList]
  cases form with
  | single => exact Reader.tokenAt_quoted (.inl rfl) (denotes_escape single cs) hcolon levels gap
  | double => exact Reader.tokenAt_quoted (.inr rfl) (denotes_escape double cs) hcolon levels gap
  | percent => exact Reader.tokenAt_percent (denotes_escape percent cs) hm levels gap

end QuoteForm

namespace Token

/-- **Written strings.** However a text is written as a string, a source of nothing else is scanned
to one string, whose text is the source and whose value is the text written. -/
theorem scan_write (form : QuoteForm) (s : String) :
    scan (form.write s) = .ok [⟨.string, form.write s, 0, 1, 0, some s, [], {}⟩] := by
  let l : Spelling := ⟨.tight, .string, form.write s, some s⟩
  have hstart := form.startsToken_write s
  have hne : form.write s ≠ "" := by
    intro hempty
    rw [hempty] at hstart
    cases hstart
  have hspelled : Reader.Spelled [] [l] [] {} (({} : Reader.Memory).note (l.token [])) := by
    refine .of_tokenAt hne ?_ rfl ?_ .nil
    · simpa [l] using hstart
    · exact form.tokenAt_write s rfl rfl _ _
  exact (scan_of_spelled (by simp [l, Spelling.chars, Lead.chars]) hspelled).1

end Token

end ConnectorAudit
