import ConnectorAudit.Token.Reader

/-!
# Heredocs

A heredoc is announced by a marker in the middle of a line and its body begins
on the next one, or behind the body of the heredoc announced before it on the
same line.  The token is the marker alone; the body is its value, and the
reader keeps a jump over all bodies for when the line ends.
-/

namespace ConnectorAudit

/-- The marker of a heredoc. -/
structure Marker where
  /-- Characters of the marker. -/
  length : Nat
  /-- The line that ends the body. -/
  terminator : List Char
  /-- Whether that line may be indented. -/
  indented : Bool
  /-- Whether the body may hold `#{…}`. -/
  interpolates : Bool
  deriving DecidableEq, Repr

namespace Marker

/-- Takes the first character off a text if it is of a class. -/
def optional (p : Char → Bool) : List Char → Option Char × List Char
  | [] => (none, [])
  | c :: cs => if p c then (some c, cs) else (none, c :: cs)

/-- The sign of a marker whose terminator may be indented. -/
def isSign (c : Char) : Bool := c == '~' || c == '-'

/-- A quote around the name of a marker. -/
def isQuote (c : Char) : Bool := c == '\'' || c == '"'

/-- Reads the name of a marker, from behind its sign and its opening quote.  Without either the
name must begin with a capital. -/
def named? (indented : Bool) (quote : Option Char) (cs : List Char) : Option Marker :=
  let name := cs.takeWhile isNameChar
  let closed := quote.isNone || (cs.drop name.length).head? == quote
  match name with
  | [] => none
  | first :: _ =>
    if isNameStart first && (indented || quote.isSome || first.isUpper) && closed then
      some {
        length := 2 + (if indented then 1 else 0) + name.length + (if quote.isSome then 2 else 0)
        terminator := name
        indented
        interpolates := quote != some '\'' }
    else none

/-- Reads a marker: `<<`, perhaps `~` or `-`, and a name that may be quoted; else `<<` is a
shift. -/
def ofChars? : List Char → Option Marker
  | '<' :: '<' :: cs =>
    let (sign, cs) := optional isSign cs
    let (quote, cs) := optional isQuote cs
    named? sign.isSome quote cs
  | _ => none

/-- Whether a line ends the body. -/
def closedBy (m : Marker) (line : List Char) : Bool :=
  let line := Text.dropEnd (· == '\r') line
  (if m.indented then Text.trim line else line) == m.terminator

/-- Looks for the end of the body that begins at `k`: the start of the terminator's line, and
the place behind that line. -/
def bodyEnd? (m : Marker) (k : Cursor) : Option (Cursor × Cursor) :=
  let line := k.rest.takeWhile (· != '\n')
  let lineEnd := k.advance line.length
  match h : lineEnd.next? with
  | none => if m.closedBy line then some (k, lineEnd) else none
  | some (_, next) =>
    have := Cursor.left_next? h
    have : lineEnd.left ≤ k.left := Cursor.left_advance_le k line.length
    if m.closedBy line then some (k, next) else m.bodyEnd? next
termination_by k.left

/-- The value of a body, unless it depends on code. -/
def value (m : Marker) (body : String) : Option String :=
  if m.interpolates && Text.holds ['#', '{'] body.toList then none else some body

end Marker

namespace Reader

/-- The start of the body of a heredoc announced just before `r`. -/
def bodyStart? (r : Reader) : Option Cursor :=
  match r.jump with
  | some jump => some jump.resume
  | none => ((r.cursor.skipWhile (· != '\n')).next?).map Prod.snd

/-- A heredoc: its marker becomes a token, and its body is kept to be jumped over. -/
def heredoc (r : Reader) (gap : Gap) (m : Marker) : Except Failure (Token × Reader) :=
  let s := r.advance m.length
  match s.bodyStart? with
  | none => .error (s.unterminated .heredoc r.cursor)
  | some start =>
    match m.bodyEnd? start with
    | none => .error (s.unterminated .heredoc r.cursor)
    | some (stop, resume) =>
      let bodyStart :=
        match s.jump with
        | some jump => jump.bodyStart
        | none => start.offset
      .ok (.between .string gap r.cursor s.cursor (m.value (start.textTo stop)),
        { s with jump := some { bodyStart, resume := s.cursor.locate resume } })

end Reader

end ConnectorAudit
