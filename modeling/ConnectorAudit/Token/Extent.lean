import ConnectorAudit.Text.Span
import ConnectorAudit.Token.Scan

/-!
# Extents

How far a bracketed stretch or a callable reaches, found on tokens alone, so
that brackets inside strings, regexes and comments do not count and a broken
literal does no more harm than a stray character.
-/

namespace ConnectorAudit

def Token.span (t : Token) : Span := ⟨t.offset, t.text.utf8ByteSize, t.line, t.column⟩

namespace Extent

/-- The span from a place to a byte offset. -/
def spanTo (k : Cursor) (stop : Nat) : Span := ⟨k.offset, stop - k.offset, k.line, k.column⟩

/-- Whether a token is this delimiter and nothing else. -/
def isDelimiter (t : Token) (c : Char) : Bool :=
  (t.kind == .braceOpen || t.kind == .braceClose || t.kind == .punctuation) &&
    t.text == String.singleton c

/-- The first token at which as many delimiters are closed as were opened, with `depth` of
them open already. -/
def closing? (opens closes : Token → Bool) : Nat → List Token → Option Token
  | _, [] => none
  | depth, t :: ts =>
    if opens t then closing? opens closes (depth + 1) ts
    else if closes t then if depth ≤ 1 then some t else closing? opens closes (depth - 1) ts
    else closing? opens closes depth ts

/-- The stretch from the `opener` at byte `start` through the `closer` that matches it. -/
def delimited (source : String) (start : Nat) (opener closer : Char) : Except Fault Span :=
  match Cursor.at? source start with
  | none => .error (.expectedOpener (.delimiter opener) start)
  | some k =>
    if k.rest.head? = some opener then
      match closing? (isDelimiter · opener) (isDelimiter · closer) 0 (Token.scanLossyFrom k).1 with
      | some t => .ok (spanTo k t.stop)
      | none => .error (.unbalanced opener.toString start k.line k.column)
    else .error (.expectedOpener (.delimiter opener) start)

/-- A token of the head of a callable: `lambda`, `proc`, `Proc.new` or `->`. -/
def isHead (t : Token) : Bool :=
  t.isName "lambda" || t.isName "proc" || t.isName "Proc" || t.isName "new" || t.isPunct "." ||
    t.isPunct "->"

/-- What follows the parenthesis that closes the list under way; nothing if none does. -/
def afterParens : Nat → List Token → List Token
  | _, [] => []
  | depth, t :: ts =>
    if t.isPunct "(" then afterParens (depth + 1) ts
    else if t.isPunct ")" then if depth ≤ 1 then ts else afterParens (depth - 1) ts
    else afterParens depth ts

/-- What is left behind the head of a callable and its parameters: its body. -/
def afterHead (tokens : List Token) : List Token :=
  let tokens := tokens.dropWhile isHead
  let tokens :=
    match tokens with
    | t :: _ => if t.isPunct "(" then afterParens 0 tokens else tokens
    | [] => []
  tokens.dropWhile fun t => t.kind == .identifier && t.text != "do" || t.isPunct ","

/-- The stretch of the callable, or of the body, that begins at byte `start`: a head, and
then either a keyword through its `end` or an opening brace through its closing one. -/
def block (source : String) (start : Nat) : Except Fault Span :=
  match Cursor.at? source start with
  | none => .error (.expectedOpener .block start)
  | some k =>
    match afterHead ((Token.scanLossyFrom k).1.filter (·.kind != .comment)) with
    | [] => .error (.expectedOpener .block start)
    | opener :: rest =>
      let through (opens closes : Token.Kind) : Except Fault Span :=
        match closing? (·.kind == opens) (·.kind == closes) 1 rest with
        | some t => .ok (spanTo k t.stop)
        | none => .error (.unbalanced opener.text opener.offset opener.line opener.column)
      match opener.kind with
      | .blockStart => through .blockStart .blockEnd
      | .braceOpen => through .braceOpen .braceClose
      | _ => .error (.expectedOpener .body opener.offset)

end Extent

end ConnectorAudit
