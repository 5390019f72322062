import ConnectorAudit.Token.Reader

/-!
# Quoted literals

The body of a literal between delimiters.  Paired delimiters nest; a backslash
takes the next character along; in an interpolating literal `#{…}` holds code,
whose tokens are kept, and the literal has no fixed value then.

The code of a segment is scanned by the token reader that the caller passes in,
which is how the levels of interpolation are counted: a level reads its segments
with the reader of the level below.
-/

namespace ConnectorAudit

/-- How the body of a literal is to be read. -/
structure Quoting where
  /-- What the literal is called when the source ends inside it. -/
  what : Unclosed
  /-- Where the literal begins. -/
  start : Cursor
  /-- The opening delimiter, if it nests. -/
  opener : Option Char := none
  closer : Char
  interpolates : Bool

/-- The body of a literal, so far. -/
structure Quoted where
  /-- The characters denoted. -/
  cooked : String := ""
  /-- The tokens of the segments. -/
  nested : List Token := []
  /-- Whether the body depends on code. -/
  dynamic : Bool := false

/-- The value that the body fixes. -/
def Quoted.value (body : Quoted) : Option String :=
  if body.dynamic then none else some body.cooked

/-- What an escape denotes in an interpolating literal. -/
def unescape : Char → Char
  | 'n' => '\n'
  | 't' => '\t'
  | 'r' => '\r'
  | '0' => '\x00'
  | 's' => ' '
  | 'e' => '\x1b'
  | 'a' => '\x07'
  | 'b' => '\x08'
  | 'f' => '\x0c'
  | 'v' => '\x0b'
  | c => c

/-- The body with a character added. -/
def Quoted.push (body : Quoted) (c : Char) : Quoted :=
  { body with cooked := body.cooked.push c }

/-- The body with an escaped character added.  Where nothing is interpolated only the
delimiters and the backslash itself can be escaped. -/
def Quoted.pushEscaped (q : Quoting) (body : Quoted) (c : Char) : Quoted :=
  if q.interpolates then body.push (unescape c)
  else if c = q.closer ∨ c = '\\' ∨ some c = q.opener then body.push c
  else (body.push '\\').push c

/-- A way to read the code of a segment, from behind its `#{` through its closing brace. -/
abbrev SegmentReader := Quoting → Reader → Except Failure (List Token × Reader)

/-- Reads a body through its closing delimiter; `depth` counts the nested delimiters that
are open. -/
def Quoting.body (q : Quoting) (segment : SegmentReader) (depth : Nat) (body : Quoted)
    (r : Reader) : Except Failure (Quoted × Reader) :=
  match h : r.bump with
  | none => .error (r.unterminated q.what q.start)
  | some (c, s) =>
    have := Reader.left_bump h
    if c = '\\' then
      match h' : s.bump with
      | none => .error (s.unterminated q.what q.start)
      | some (e, t) =>
        have := Reader.left_bump h'
        q.body segment depth (Quoted.pushEscaped q body e) t
    else if q.interpolates && c == '#' && s.rest.head? == some '{' then
      match segment q (s.advance 1) with
      | .error failure => .error failure
      | .ok (tokens, t) =>
        if t.left < r.left then
          q.body segment depth { body with nested := body.nested ++ tokens, dynamic := true } t
        else .error (t.unterminated q.what q.start)
    else
      let sigil := s.rest.head? == some '@' || s.rest.head? == some '$'
      let body :=
        if q.interpolates && c == '#' && sigil then { body with dynamic := true } else body
      if q.opener = some c then q.body segment (depth + 1) (body.push c) s
      else if c = q.closer then
        match depth with
        | 0 => .ok (body, s)
        | depth + 1 => q.body segment depth (body.push c) s
      else q.body segment depth (body.push c) s
termination_by r.left

/-- The tokens of a segment up to the brace that closes it; `braces` counts the braces
that its own code has open, and `tokens` holds what is read, last first. -/
def Quoting.segmentTokens (q : Quoting) (token : Gap → Reader → Except Failure (Token × Reader))
    (braces : Nat) (tokens : List Token) (r : Reader) : Except Failure (List Token × Reader) :=
  let (gap, s) := r.skipTrivia
  match s.rest with
  | [] => .error (s.unterminated q.what q.start)
  | c :: _ =>
    if c = '}' ∧ braces = 0 then .ok (tokens.reverse, s.advance 1)
    else
      match token gap s with
      | .error failure => .error failure
      | .ok (t, u) =>
        let braces :=
          match t.kind with
          | .braceOpen => braces + 1
          | .braceClose => braces - 1
          | _ => braces
        if u.left < r.left then
          have := u.left_note t
          q.segmentTokens token braces (t :: tokens) (u.note t)
        else .error (u.unterminated q.what q.start)
termination_by r.left

/-- Reads a segment with the token reader of the level below.  The code of a segment stands
alone: it does not see what came before it, nor leaves anything behind. -/
def segmentWith (token : Gap → Reader → Except Failure (Token × Reader)) : SegmentReader :=
  fun q r =>
    let inner := { r with previous := none, afterQuestion := false, loopLine := none }
    match q.segmentTokens token 0 [] inner with
    | .error failure => .error failure
    | .ok (tokens, s) =>
      .ok (tokens, { s with
        previous := r.previous, afterQuestion := r.afterQuestion, loopLine := r.loopLine })

/-- Refuses every segment: no further level of interpolation is allowed. -/
def noSegment : SegmentReader :=
  fun _ r => .error (r.failure (.nestedTooDeep r.cursor.line))

end ConnectorAudit
