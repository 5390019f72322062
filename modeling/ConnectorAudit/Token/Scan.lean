import ConnectorAudit.Text.Alphanumeric
import ConnectorAudit.Token.Heredoc
import ConnectorAudit.Token.Lexeme
import ConnectorAudit.Token.Quoted

/-!
# Scanning

From source text to tokens.  `Reader.tokenWith` reads one token, `tokenAt`
fixes how many further levels of interpolation it may open, and `Reader.step`
is one step of a scan at top level.

A scan comes in two forms that share the step.  `Token.scan` gives up at the
first fault.  `Token.scanLossy` never does: it notes the fault, turns the first
character of the broken item into a stray token and goes on behind it.
-/

namespace ConnectorAudit

/-! ## Percent literals -/

/-- The head of a percent literal. -/
structure PercentHead where
  /-- The letter that says what the literal denotes. -/
  form : Char
  /-- The opening delimiter. -/
  opener : Char
  /-- Characters of the head, the delimiter included. -/
  length : Nat
  deriving DecidableEq, Repr

namespace PercentHead

/-- Reads the head of a percent literal: a form letter and any delimiter that is neither
letter, number nor blank, or one of a few delimiters alone. -/
def ofChars? : List Char → Option PercentHead
  | '%' :: c :: cs =>
    if ['w', 'W', 'i', 'I', 'q', 'Q', 'r', 's', 'x'].contains c then
      match cs with
      | d :: _ => if isAlphanumeric d || isBlank d then none else some ⟨c, d, 3⟩
      | [] => none
    else if ['(', '[', '{', '<', '|', '!', '^'].contains c then some ⟨'Q', c, 2⟩
    else none
  | _ => none

/-- The delimiter that closes what `c` opens. -/
def closerOf : Char → Char
  | '(' => ')'
  | '[' => ']'
  | '{' => '}'
  | '<' => '>'
  | c => c

/-- How the body behind the head is to be read. -/
def quoting (head : PercentHead) (start : Cursor) : Quoting :=
  let closer := closerOf head.opener
  { what := .percent
    start
    opener := if head.opener = closer then none else some head.opener
    closer
    interpolates := ['W', 'I', 'Q', 'r', 'x'].contains head.form }

/-- The kind of token that the form letter asks for. -/
def kind (head : PercentHead) : Token.Kind :=
  if ['w', 'W', 'i', 'I'].contains head.form then .words
  else if head.form = 'r' then .regex
  else if head.form = 's' then .symbol
  else if head.form = 'x' then .command
  else .string

/-- The value that the body fixes.  Words and symbols keep what they cook to even when
they interpolate; regexes and commands never have a value. -/
def value (head : PercentHead) (body : Quoted) : Option String :=
  match head.kind with
  | .words | .symbol => some body.cooked
  | .regex | .command => none
  | _ => body.value

end PercentHead

namespace Reader

/-! ## Literals -/

/-- A string or a command between its quotes; a string with a fixed value that a colon
clings to is a label. -/
def quotation (r : Reader) (segment : SegmentReader) (gap : Gap) (quote : Char) :
    Except Failure (Token × Reader) := do
  let isCommand := quote == '\x60'
  let q : Quoting := {
    what := if isCommand then .command else .string
    start := r.cursor
    closer := quote
    interpolates := quote != '\'' }
  let (body, s) ← q.body segment 0 {} (r.advance 1)
  if !isCommand && !body.dynamic && !s.afterQuestion && labelColon s.rest then
    let s := s.advance 1
    return (.between .label gap r.cursor s.cursor (some body.cooked), s)
  else
    let kind := if isCommand then .command else .string
    return (.between kind gap r.cursor s.cursor body.value body.nested, s)

/-- A quoted symbol: a colon and a string. -/
def quotedSymbol (r : Reader) (segment : SegmentReader) (gap : Gap) (quote : Char) :
    Except Failure (Token × Reader) := do
  let q : Quoting := {
    what := .symbol
    start := r.cursor
    closer := quote
    interpolates := quote == '"' }
  let (body, s) ← q.body segment 0 {} (r.advance 2)
  return (.between .symbol gap r.cursor s.cursor body.value body.nested, s)

/-- A symbol, or a colon that is mere punctuation. -/
def colon (r : Reader) (segment : SegmentReader) (gap : Gap) :
    Except Failure (Token × Reader) :=
  match r.rest.tail with
  | [] => .ok (r.punctuation gap)
  | c :: cs =>
    if c = '"' ∨ c = '\'' then r.quotedSymbol segment gap c
    else if isNameStart c then
      let n := wordLength (c :: cs)
      .ok (r.take .symbol gap (n + 1) (some (String.ofList ((c :: cs).take n))))
    else if c ≠ ':' ∧ r.valueExpected then
      match firstOf operatorSymbols (c :: cs) with
      | some op => .ok (r.take .symbol gap (op.length + 1) (some op))
      | none => .ok (r.punctuation gap)
    else .ok (r.punctuation gap)

def regex (r : Reader) (segment : SegmentReader) (gap : Gap) :
    Except Failure (Token × Reader) := do
  let q : Quoting := { what := .regex, start := r.cursor, closer := '/', interpolates := true }
  let (body, s) ← q.body segment 0 {} (r.advance 1)
  let s := s.advance (runLength Char.isLower s.rest)
  return (.between .regex gap r.cursor s.cursor none body.nested, s)

/-- A slash behind a command name: a regex if one can be read that stays on its line, else
a division.  An attempt that is given up leaves no trace but the end-of-data flag. -/
def regexOrSlash (r : Reader) (segment : SegmentReader) (gap : Gap) : Token × Reader :=
  match r.regex segment gap with
  | .ok (token, s) =>
    if token.text.toList.contains '\n' then { r with ended := s.ended }.punctuation gap
    else (token, s)
  | .error failure => { r with ended := failure.ended }.punctuation gap

/-- A percent literal; a regex may carry flags. -/
def percent (r : Reader) (segment : SegmentReader) (gap : Gap) (head : PercentHead) :
    Except Failure (Token × Reader) := do
  let (body, s) ← (head.quoting r.cursor).body segment 0 {} (r.advance head.length)
  let s := if head.kind = .regex then s.advance (runLength Char.isLower s.rest) else s
  return (.between head.kind gap r.cursor s.cursor (head.value body) body.nested, s)

/-- Whether a block comment begins here. -/
def opensBlockComment (k : Cursor) : Bool :=
  k.atLineStart && k.startsWith "=begin" &&
    match k.rest.drop 6 with
    | [] => true
    | c :: _ => isBlank c

/-- The end of a block comment: the end of the first later line that begins with `=end`. -/
def blockCommentEnd? (r : Reader) : Option Reader :=
  let lineEnd := r.advance (runLength (· != '\n') r.rest)
  match h : lineEnd.bump with
  | none => none
  | some (_, next) =>
    have := left_bump h
    have : lineEnd.left ≤ r.left := Cursor.left_advance_le r.cursor _
    if next.cursor.startsWith "=end" then
      some (next.advance (runLength (· != '\n') next.rest))
    else next.blockCommentEnd?
termination_by r.left

/-- The end of the last line, where a block comment that nothing closes is given up. -/
def lastLineEnd (r : Reader) : Reader :=
  let lineEnd := r.advance (runLength (· != '\n') r.rest)
  match h : lineEnd.bump with
  | none => lineEnd
  | some (_, next) =>
    have := left_bump h
    have : lineEnd.left ≤ r.left := Cursor.left_advance_le r.cursor _
    next.lastLineEnd
termination_by r.left

def blockComment (r : Reader) (gap : Gap) : Except Failure (Token × Reader) :=
  match r.blockCommentEnd? with
  | none => .error (r.lastLineEnd.unterminated .blockComment r.cursor)
  | some s => .ok (.between .comment gap r.cursor s.cursor, s)

/-! ## One token -/

/-- Reads a token, with `segment` for the code inside of it. -/
def tokenWith (segment : SegmentReader) (gap : Gap) (r : Reader) :
    Except Failure (Token × Reader) :=
  match r.rest with
  | [] => .error (r.unterminated .input r.cursor)
  | c :: _ =>
    if c = '#' then .ok (r.comment gap)
    else if c = '=' ∧ opensBlockComment r.cursor then r.blockComment gap
    else if c = '\'' ∨ c = '"' ∨ c = '\x60' then r.quotation segment gap c
    else if c = '{' then .ok (r.take .braceOpen gap 1)
    else if c = '}' then .ok (r.take .braceClose gap 1)
    else if c = ':' then r.colon segment gap
    else if c = '/' then
      if r.valueExpected then r.regex segment gap
      else if r.argumentFollows gap then .ok (r.regexOrSlash segment gap)
      else .ok (r.punctuation gap)
    else if c = '%' then
      match PercentHead.ofChars? r.rest with
      | some head =>
        if r.valueExpected || r.argumentFollows gap then r.percent segment gap head
        else .ok (r.punctuation gap)
      | none => .ok (r.punctuation gap)
    else if c = '<' then
      match Marker.ofChars? r.rest with
      | some marker =>
        if r.valueExpected || r.argumentFollows gap then r.heredoc gap marker
        else .ok (r.punctuation gap)
      | none => .ok (r.punctuation gap)
    else if c = '@' ∨ c = '$' then .ok (r.sigilName gap)
    else if c.isDigit then .ok (r.numeral gap)
    else if isNameStart c then .ok (r.word gap)
    else .ok (r.punctuation gap)

/-- Reads a token that may open `levels` further levels of interpolation. -/
def tokenAt : (levels : Nat) → Gap → Reader → Except Failure (Token × Reader)
  | 0 => tokenWith noSegment
  | levels + 1 => tokenWith (segmentWith (tokenAt levels))

/-! ## Scans -/

/-- One step of a scan at top level. -/
inductive Step where
  /-- Nothing is left. -/
  | done
  /-- A token, and the reader behind it. -/
  | token (t : Token) (next : Reader)
  /-- A fault, the stray token that stands for its first character, and the reader behind
  that. -/
  | fault (f : Fault) (t : Token) (next : Reader)

/-- Reads the next token at top level.  A failed attempt is undone, but for the end-of-data
flag. -/
def step (r : Reader) : Step :=
  if r.ended then .done
  else
    let (gap, s) := r.skipTrivia
    if s.ended || s.rest.isEmpty then .done
    else
      match tokenAt interpolationLimit gap s with
      | .ok (t, u) => .token t (u.note t)
      | .error failure =>
        let (t, u) := { s with ended := failure.ended }.stray gap
        .fault failure.fault t (u.note t)

/-- All tokens from `r` on, behind those already read, last first; or the first fault. -/
def tokensFrom (tokens : List Token) (r : Reader) : Except Fault (List Token) :=
  match r.step with
  | .done => .ok tokens.reverse
  | .token t s =>
    if s.left < r.left then s.tokensFrom (t :: tokens) else .ok (t :: tokens).reverse
  | .fault f _ _ => .error f
termination_by r.left

/-- All tokens from `r` on, with a stray token for each fault, and the faults; behind those
already read, last first. -/
def lossyFrom (tokens : List Token) (faults : List Fault) (r : Reader) :
    List Token × List Fault :=
  match r.step with
  | .done => (tokens.reverse, faults.reverse)
  | .token t s =>
    if s.left < r.left then s.lossyFrom (t :: tokens) faults
    else ((t :: tokens).reverse, faults.reverse)
  | .fault f t s =>
    if s.left < r.left then s.lossyFrom (t :: tokens) (f :: faults)
    else ((t :: tokens).reverse, (f :: faults).reverse)
termination_by r.left

end Reader

namespace Token

/-- The tokens of a source, or its first fault. -/
def scan (source : String) : Except Fault (List Token) :=
  (Reader.ofCursor (.ofSource source)).tokensFrom []

/-- The tokens from a place on, a stray one for each fault, and the faults. -/
def scanLossyFrom (k : Cursor) : List Token × List Fault :=
  (Reader.ofCursor k).lossyFrom [] []

/-- The tokens of a source, a stray one for each fault, and the faults. -/
def scanLossy (source : String) : List Token × List Fault := scanLossyFrom (.ofSource source)

end Token

end ConnectorAudit
