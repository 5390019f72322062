import ConnectorAudit.Text.Feed
import ConnectorAudit.Token.Extent
import ConnectorAudit.Tree
import ConnectorAudit.Tree.Grammar

/-!
# The progress of a parse

A parse stands before the tokens it has not used yet; it remembers the span of
the last one it used, where the node under way would end, and the notes it has
made on the way.  A rule reads a part of the source from there, or fails with
the notes made so far.
-/

namespace ConnectorAudit

/-- Where a parse stands. -/
structure Progress where
  /-- The tokens still to be used. -/
  feed : Feed Token
  /-- The span of the token used last. -/
  last : Span
  /-- What was noted, in order. -/
  notes : List String := []

/-- A way to read a part of the source. -/
abbrev Rule (α : Type) := Progress → Except ParseFailure (α × Progress)

namespace Progress

/-- The start of a parse; comments are left out. -/
def ofTokens (tokens : List Token) (last : Span) : Progress :=
  { feed := .ofList (tokens.filter (·.kind != .comment)), last }

def left (p : Progress) : Nat := p.feed.count

/-- The next token, left in place. -/
def peek? (p : Progress) : Option Token := p.feed.head?

/-- The token behind the next one. -/
def peekSecond? (p : Progress) : Option Token := p.feed.items.tail.head?

/-- The next token, used up. -/
def next? (p : Progress) : Option (Token × Progress) :=
  match p.feed.next? with
  | none => none
  | some (t, feed) => some (t, { p with feed, last := t.span })

/-- The place behind the next token, if there is one. -/
def skip (p : Progress) : Progress :=
  match p.next? with
  | none => p
  | some (_, q) => q

/-- Using a token leaves one token fewer. -/
theorem left_next? {p q : Progress} {t : Token} (h : p.next? = some (t, q)) :
    p.left = q.left + 1 := by
  unfold next? at h
  split at h
  · cases h
  · rename_i u feed hf
    obtain ⟨rfl, rfl⟩ : u = t ∧ { p with feed, last := u.span } = q := by simpa using h
    exact Feed.count_next? hf

/-- The failure at this place. -/
def fail {α : Type} (p : Progress) (error : ParseError) : Except ParseFailure α :=
  .error ⟨error, p.notes⟩

/-- The failure of a source that ends here. -/
def failAtEnd {α : Type} (p : Progress) (expected : Expected) : Except ParseFailure α :=
  p.fail (.unexpectedEnd expected)

/-- The failure of a token that cannot stand here. -/
def failAt {α : Type} (p : Progress) (t : Token) (expected : Expected) : Except ParseFailure α :=
  p.fail (.unexpected t.text expected t.line t.column)

/-- The failure of nesting too deeply here. -/
def failTooDeep {α : Type} (p : Progress) : Except ParseFailure α :=
  p.fail (.tooDeep (p.peek?.elim p.last.line (·.line)))

def note (p : Progress) (text : String) : Progress := { p with notes := p.notes ++ [text] }

def noteToken (p : Progress) (t : Token) (what : String) : Progress :=
  p.note s!"line {t.line}, column {t.column}: {what} `{t.text}`"

/-- Uses the closer, which must stand here. -/
def expect (p : Progress) (c : Closer) : Except ParseFailure Progress :=
  match p.next? with
  | none => p.failAtEnd (.closer c)
  | some (t, q) => if c.matches t then .ok q else p.failAt t (.closer c)

/-- Whether the next token begins the first argument of a call without parentheses. -/
def argumentFollows (p : Progress) : Bool :=
  p.peek?.any fun t => t.startsArgument p.peekSecond?

end Progress

end ConnectorAudit
