import ConnectorAudit.Text.Feed

/-!
# Cursors

A cursor is a place in a source text: the text on both sides of it, the byte
offset reached, and the line and column of that place.  Lines count from one and
columns from zero, in characters; offsets count UTF-8 bytes.

Reading keeps count of all of them a character at a time.  A place that is not
read up to is counted from the text instead (`Cursor.locate`): the lines between
two places, and the beginning of the second one's line by looking back for it.

The text between two cursors is read off the first one by the difference of the
offsets, so a stretch that was jumped over on the way is part of it.
-/

namespace ConnectorAudit

/-- The number of UTF-8 bytes of a list of characters. -/
def byteSize : List Char → Nat
  | [] => 0
  | c :: cs => c.utf8Size + byteSize cs

/-- The characters that fill the first `n` bytes. -/
def takeBytes : Nat → List Char → List Char
  | _, [] => []
  | n, c :: cs => if n = 0 then [] else c :: takeBytes (n - c.utf8Size) cs

/-- A place in a source text. -/
@[ext]
structure Cursor where
  /-- What is left to read. -/
  feed : Feed Char
  /-- What stands before this place, the last character first. -/
  before : List Char
  /-- Bytes before this place. -/
  offset : Nat
  /-- Line of this place, from one. -/
  line : Nat
  /-- Bytes before the first place of its line. -/
  lineStart : Nat
  /-- Characters before this place on its line. -/
  column : Nat

namespace Cursor

/-- The beginning of a text. -/
def ofSource (source : String) : Cursor := ⟨Feed.ofList source.toList, [], 0, 1, 0, 0⟩

/-- The characters from here on. -/
def rest (k : Cursor) : List Char := k.feed.items

def left (k : Cursor) : Nat := k.feed.count

/-- Whether this is the first place of its line. -/
def atLineStart (k : Cursor) : Bool := k.offset == k.lineStart

/-- The place behind `c`, where `feed` is what follows it. -/
def past (k : Cursor) (c : Char) (feed : Feed Char) : Cursor :=
  let offset := k.offset + c.utf8Size
  if c = '\n' then ⟨feed, c :: k.before, offset, k.line + 1, offset, 0⟩
  else ⟨feed, c :: k.before, offset, k.line, k.lineStart, k.column + 1⟩

/-- The next character and the place behind it. -/
def next? (k : Cursor) : Option (Char × Cursor) :=
  match k.feed.next? with
  | none => none
  | some (c, feed) => some (c, k.past c feed)

/-- The place `n` characters on, or the end of the text. -/
def advance (k : Cursor) : Nat → Cursor
  | 0 => k
  | n + 1 =>
    match k.next? with
    | none => k
    | some (_, k) => k.advance n

/-- The first place from here whose character is not of the class. -/
def skipWhile (k : Cursor) (p : Char → Bool) : Cursor :=
  k.advance (k.rest.takeWhile p).length

/-- Whether the text goes on with `word`. -/
def startsWith (k : Cursor) (word : String) : Bool := word.toList.isPrefixOf k.rest

/-- The end of the text, on the line and in the column of `k`. -/
def atEnd (k : Cursor) : Cursor :=
  { k with
    feed := Feed.ofList []
    before := k.rest.reverse ++ k.before
    offset := k.offset + byteSize k.rest }

/-- The text from `k` up to `stop`. -/
def textTo (k stop : Cursor) : String :=
  String.ofList (takeBytes (stop.offset - k.offset) k.rest)

/-- The place `stop`, with its line counted from `k` on and its column from the last line feed
before it; there is no text to count in if `stop` is not ahead of `k`. -/
def locate (k stop : Cursor) : Cursor :=
  if stop.left ≤ k.left then
    let line := stop.before.takeWhile (· != '\n')
    { stop with
      line := k.line + (k.textTo stop).toList.count '\n'
      lineStart := stop.offset - byteSize line
      column := line.length }
  else stop

@[simp]
theorem feed_past (k : Cursor) (c : Char) (feed : Feed Char) : (k.past c feed).feed = feed := by
  unfold past
  split <;> rfl

@[simp]
theorem offset_past (k : Cursor) (c : Char) (feed : Feed Char) :
    (k.past c feed).offset = k.offset + c.utf8Size := by
  unfold past
  split <;> rfl

/-- Reading a character takes it off the rest and adds its bytes to the offset. -/
theorem next?_eq_some {k l : Cursor} {c : Char} (h : k.next? = some (c, l)) :
    k.rest = c :: l.rest ∧ l.offset = k.offset + c.utf8Size := by
  unfold next? at h
  split at h
  · cases h
  · rename_i d feed hf
    obtain ⟨rfl, rfl⟩ : d = c ∧ k.past d feed = l := by simpa using h
    exact ⟨by simpa [rest] using Feed.next?_eq_some_iff.1 hf, offset_past _ _ _⟩

/-- There is no next character exactly at the end. -/
theorem next?_eq_none_iff {k : Cursor} : k.next? = none ↔ k.rest = [] := by
  unfold next? rest
  rw [← Feed.ofList_items k.feed]
  cases k.feed.items <;> simp

theorem left_eq_length (k : Cursor) : k.left = k.rest.length := k.feed.count_eq

/-- Reading a character leaves one character fewer. -/
theorem left_next? {k l : Cursor} {c : Char} (h : k.next? = some (c, l)) :
    k.left = l.left + 1 := by
  rw [left_eq_length, left_eq_length, (next?_eq_some h).1, List.length_cons]

/-- Advancing never adds to what is left. -/
theorem left_advance_le (k : Cursor) (n : Nat) : (k.advance n).left ≤ k.left := by
  induction n generalizing k with
  | zero => exact Nat.le_refl _
  | succ n ih =>
    unfold advance
    split
    · exact Nat.le_refl _
    · rename_i c l h
      have := left_next? h
      have := ih l
      omega

/-- The place at byte `target`, from here on; none if the text ends before it or a
character straddles it. -/
def seek (k : Cursor) (target : Nat) : Option Cursor :=
  if k.offset = target then some k
  else if target < k.offset then none
  else
    match h : k.next? with
    | none => none
    | some (_, l) =>
      have := left_next? h
      l.seek target
termination_by k.left

/-- The place at byte `start` of a text. -/
def at? (source : String) (start : Nat) : Option Cursor :=
  ((ofSource source).seek start).map (ofSource source).locate

end Cursor

end ConnectorAudit
