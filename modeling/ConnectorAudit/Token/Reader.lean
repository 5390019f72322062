import ConnectorAudit.Token
import ConnectorAudit.Text.Blank

/-!
# Readers

A reader is where a scan stands: a cursor, and the little that the tokens
before it leave behind.  What may follow depends on the kind of the previous
token (`/` after a value divides, after an operator it opens a regex), on
whether a ternary `?` came just before, on whether a loop keyword on this line
still waits for its `do`, and on whether a heredoc was announced on this line,
whose body is jumped over when the line ends.

`bump` is the one way past a line end.  It always leaves fewer characters
(`left_bump`), because a jump is taken only forwards; every loop of the scan
ends by that.
-/

namespace ConnectorAudit

/-- What the previous token lets follow. -/
inductive Standing where
  /-- A finished value: a literal, a closing bracket, `end`. -/
  | value
  /-- A name, which may be a variable or a command with arguments. -/
  | name
  /-- A call operator: the next word is a method name and never a keyword. -/
  | dot
  /-- An operator, an opener or a separator: a value follows. -/
  | start
  deriving DecidableEq, Repr

/-- Where reading goes on after the line that announced heredocs. -/
structure Jump where
  /-- Byte offset of the first body, which is the start of the next line. -/
  bodyStart : Nat
  /-- The place behind the last terminator. -/
  resume : Cursor

/-- Where a scan stands. -/
structure Reader where
  cursor : Cursor
  /-- The jump that waits for the end of this line. -/
  jump : Option Jump := none
  /-- The previous token that is no comment: what it lets follow, and its line. -/
  previous : Option (Standing × Nat) := none
  /-- Whether that token was a ternary `?`. -/
  afterQuestion : Bool := false
  /-- The line of a loop keyword that may still take a `do`. -/
  loopLine : Option Nat := none
  /-- Whether the end-of-data marker was met. -/
  ended : Bool := false

/-- A failed attempt at a token. -/
structure Failure where
  fault : Fault
  /-- Where the attempt was given up. -/
  cursor : Cursor
  /-- The jump that waited there. -/
  jump : Option Jump
  /-- Whether the attempt met the end-of-data marker. -/
  ended : Bool

/-! ## Character classes -/

/-- A character that may begin a name: letters, `_` and everything beyond ASCII. -/
def isNameStart (c : Char) : Bool := c.isAlpha || c == '_' || 0x80 ≤ c.toNat

def isNameChar (c : Char) : Bool := c.isAlphanum || c == '_' || 0x80 ≤ c.toNat

/-- The words after which a value is expected. -/
def valueKeywords : List String :=
  ["and", "or", "not", "then", "else", "elsif", "when", "in", "rescue", "ensure", "if", "unless",
    "while", "until", "do"]

/-- What a token lets follow; comments change nothing. -/
def Token.standing (t : Token) : Option Standing :=
  match t.kind with
  | .comment => none
  | .identifier => some (if valueKeywords.contains t.text then .start else .name)
  | .string | .symbol | .command | .regex | .words | .numeral | .braceClose | .blockEnd =>
    some .value
  | .punctuation =>
    if t.text == ")" || t.text == "]" then some .value
    else if t.text == "." || t.text == "&." || t.text == "::" then some .dot
    else some .start
  | .label | .blockStart | .braceOpen | .other => some .start

namespace Reader

/-- A reader at a cursor, with nothing before it. -/
def ofCursor (cursor : Cursor) : Reader := { cursor }

def rest (r : Reader) : List Char := r.cursor.rest

def left (r : Reader) : Nat := r.cursor.left

/-- The reader `n` characters on; for stretches that hold no line end. -/
def advance (r : Reader) (n : Nat) : Reader := { r with cursor := r.cursor.advance n }

/-- At the start of a line, takes the jump that waited for it. -/
def settle (r : Reader) : Reader :=
  match r.jump with
  | none => r
  | some jump =>
    if jump.bodyStart = r.cursor.offset ∧ jump.resume.left ≤ r.cursor.left then
      { r with cursor := jump.resume, jump := none }
    else r

/-- The next character and the reader behind it, over the heredocs if a line ends. -/
def bump (r : Reader) : Option (Char × Reader) :=
  match r.cursor.next? with
  | none => none
  | some (c, cursor) =>
    let r := { r with cursor }
    some (c, if c = '\n' then r.settle else r)

theorem left_settle_le (r : Reader) : r.settle.left ≤ r.left := by
  unfold settle
  split
  · exact Nat.le_refl _
  · split
    · rename_i h
      exact h.2
    · exact Nat.le_refl _

/-- Reading a character leaves fewer of them. -/
theorem left_bump {r s : Reader} {c : Char} (h : r.bump = some (c, s)) : s.left < r.left := by
  unfold bump at h
  split at h
  · cases h
  · rename_i d cursor hk
    have hleft : r.left = cursor.left + 1 := Cursor.left_next? hk
    obtain ⟨rfl, rfl⟩ :
        d = c ∧ (if d = '\n' then { r with cursor }.settle else { r with cursor }) = s := by
      simpa using h
    have hs : { r with cursor }.settle.left ≤ cursor.left := left_settle_le _
    split
    · omega
    · exact hleft ▸ Nat.lt_succ_self _

/-- The failure of an attempt that is given up here. -/
def failure (r : Reader) (fault : Fault) : Failure := ⟨fault, r.cursor, r.jump, r.ended⟩

/-- The failure of an item, begun at `start`, that the source does not close. -/
def unterminated (r : Reader) (what : Unclosed) (start : Cursor) : Failure :=
  r.failure (.unterminated what start.line start.column)

/-! ## What the previous token lets follow -/

/-- A value must follow, so that `/`, `%` and `<<` open literals. -/
def valueExpected (r : Reader) : Bool :=
  match r.previous with
  | some (.value, _) | some (.name, _) | some (.dot, _) => false
  | some (.start, _) | none => true

/-- A name, a blank and then an opener with no blank behind it: `puts /x/`. -/
def argumentFollows (r : Reader) (gap : Gap) : Bool :=
  match r.previous, r.rest with
  | some (.name, _), _ :: c :: _ => gap.space && !isBlank c && c != '='
  | _, _ => false

/-- A keyword on this line would open a statement, not qualify one. -/
def statementPosition (r : Reader) (line : Nat) : Bool :=
  match r.previous with
  | none => true
  | some (standing, previousLine) =>
    previousLine != line || !(standing == .value || standing == .name)

/-- Keeps what a token lets follow. -/
def note (r : Reader) (t : Token) : Reader :=
  match t.standing with
  | none => r
  | some standing =>
    { r with previous := some (standing, t.line), afterQuestion := t.isPunct "?" }

/-- Keeping a token moves nothing. -/
@[simp]
theorem cursor_note (r : Reader) (t : Token) : (r.note t).cursor = r.cursor := by
  unfold note
  split <;> rfl

theorem left_note (r : Reader) (t : Token) : (r.note t).left = r.left := by simp [left]

/-! ## Between tokens -/

/-- Whether the rest of the source is data: `__END__` alone on its line. -/
def atDataMarker (k : Cursor) : Bool :=
  k.atLineStart && k.startsWith "__END__" &&
    match k.rest.drop 7 with
    | [] => true
    | c :: _ => c == '\n' || c == '\r'

/-- Passes blanks, line ends and escaped line ends, and stops for good at the data
marker. -/
def skipTrivia (r : Reader) (gap : Gap := {}) : Gap × Reader :=
  match h : r.bump with
  | none => (gap, r)
  | some (c, s) =>
    have := left_bump h
    if c = ' ' ∨ c = '\t' ∨ c = '\r' ∨ c = '\x0c' then s.skipTrivia { gap with space := true }
    else if c = '\n' then s.skipTrivia { space := true, newline := true }
    else if c = '\\' then
      match h' : s.bump with
      | some ('\n', s') =>
        have := left_bump h'
        s'.skipTrivia { gap with space := true }
      | _ => (gap, r)
    else if atDataMarker r.cursor then (gap, { r with cursor := r.cursor.atEnd, ended := true })
    else (gap, r)
termination_by r.left

/-- Passing blanks never adds to what is left. -/
theorem left_skipTrivia_le (r : Reader) (gap : Gap) : (r.skipTrivia gap).2.left ≤ r.left := by
  fun_induction skipTrivia r gap with
  | case1 => exact Nat.le_refl _
  | case2 _ _ _ _ _ _ _ ih => omega
  | case3 _ _ _ _ _ _ ih => omega
  | case4 _ _ _ _ _ _ _ _ _ _ ih => omega
  | case5 => exact Nat.le_refl _
  | case6 => exact Nat.zero_le _
  | case7 => exact Nat.le_refl _

end Reader

end ConnectorAudit
