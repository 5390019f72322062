import ConnectorAudit.Text.Cursor

/-!
# Tokens

The lexical items of a document.  A token carries its text as it stands in the
source, the place where it begins, and, for labels, symbols and strings, the
value that the text denotes.  A literal that interpolates code has no fixed
value; the tokens of its `#{…}` segments hang below it.
-/

namespace ConnectorAudit

/-- What kind of lexical item a token is. -/
inductive Token.Kind where
  /-- A name, or a keyword that opens nothing. -/
  | identifier
  /-- `name:` or `"name":`, the key of an entry. -/
  | label
  | string
  | symbol
  /-- A command substitution: backticks or `%x`. -/
  | command
  | regex
  /-- `%w[…]` and its kin. -/
  | words
  | numeral
  | punctuation
  /-- A keyword that opens a body closed by `end`. -/
  | blockStart
  | blockEnd
  | braceOpen
  | braceClose
  | comment
  /-- A character that begins nothing known. -/
  | other
  deriving DecidableEq, Repr, Inhabited

/-- What stood between a token and the one before it. -/
structure Gap where
  /-- Any blank. -/
  space : Bool := false
  /-- A line end that was not escaped. -/
  newline : Bool := false
  deriving DecidableEq, Repr, Inhabited

structure Token where
  kind : Token.Kind
  /-- The text as it stands in the source. -/
  text : String
  /-- Byte offset of the first character. -/
  offset : Nat
  line : Nat
  column : Nat
  /-- The value denoted, where the text fixes one. -/
  value : Option String := none
  /-- The tokens of the `#{…}` segments, in order. -/
  nested : List Token := []
  /-- What stood before the token. -/
  gap : Gap := {}
  deriving Repr, Inhabited

namespace Token

/-- The byte offset behind the token. -/
def stop (t : Token) : Nat := t.offset + t.text.utf8ByteSize

def isPunct (t : Token) (text : String) : Bool := t.kind == .punctuation && t.text == text

def isName (t : Token) (text : String) : Bool := t.kind == .identifier && t.text == text

/-- The token that reaches from `start` to `stop`. -/
def between (kind : Kind) (gap : Gap) (start stop : Cursor) (value : Option String := none)
    (nested : List Token := []) : Token where
  kind
  text := start.textTo stop
  offset := start.offset
  line := start.line
  column := start.column
  value
  nested
  gap

end Token

/-! ## Faults -/

/-- What a scan was inside of when the source ended. -/
inductive Unclosed where
  | input
  | blockComment
  | string
  | command
  | symbol
  | regex
  | percent
  | heredoc
  deriving DecidableEq, Repr

/-- The name of an unclosed item, as messages give it. -/
def Unclosed.label : Unclosed → String
  | input => "input"
  | blockComment => "block comment"
  | string => "string"
  | command => "command literal"
  | symbol => "symbol"
  | regex => "regex"
  | percent => "percent literal"
  | heredoc => "heredoc"

/-- What was looked for at the start of an extent. -/
inductive Opener where
  /-- This very character. -/
  | delimiter (c : Char)
  /-- A callable of any form. -/
  | block
  /-- The body of a callable. -/
  | body
  deriving DecidableEq, Repr

/-- The name of an opener, as messages give it. -/
def Opener.label : Opener → String
  | delimiter c => "'" ++ c.toString ++ "'"
  | block => "block"
  | body => "'do' or '\x7b'"

/-- How many levels of interpolation may be open at once. -/
def interpolationLimit : Nat := 32

/-- Why a text cannot be cut into tokens, or an extent not be found. -/
inductive Fault where
  /-- The source ends inside a literal or comment that began here. -/
  | unterminated (what : Unclosed) (line column : Nat)
  /-- An opener, at this place, that nothing closes. -/
  | unbalanced (opener : String) (offset line column : Nat)
  /-- No opener at this byte. -/
  | expectedOpener (what : Opener) (offset : Nat)
  /-- More levels of interpolation than allowed. -/
  | nestedTooDeep (line : Nat)
  deriving DecidableEq, Repr

def Fault.message : Fault → String
  | unterminated what line column =>
    s!"unterminated {what.label} starting at line {line}, column {column}"
  | unbalanced opener _ line column =>
    s!"unbalanced '{opener}' starting at line {line}, column {column}"
  | expectedOpener what offset => s!"expected {what.label} at byte offset {offset}"
  | nestedTooDeep line =>
    s!"interpolation nested deeper than {interpolationLimit} levels at line {line}"

end ConnectorAudit
