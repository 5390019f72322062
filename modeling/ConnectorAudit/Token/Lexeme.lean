import ConnectorAudit.Token.Reader

/-!
# Plain lexemes

The items that are settled by looking at the characters ahead: how far a word,
a numeral or a piece of punctuation reaches, and which kind of token a word is.
None of them spans a line end.
-/

namespace ConnectorAudit

/-- The number of leading characters of a class. -/
def runLength (p : Char → Bool) (cs : List Char) : Nat := (cs.takeWhile p).length

/-- The punctuation, in the order in which it is tried. -/
def punctuation : List String :=
  ["**=", "<=>", "===", "...", "<<=", ">>=", "&&=", "||=", "&.", "::", "->", "=>", "==", "!=",
    "=~", "!~", "<=", ">=", "&&", "||", "<<", ">>", "**", "+=", "-=", "*=", "/=", "%=", "|=",
    "&=", "^=", "..", "(", ")", "[", "]", ",", ".", ";", "+", "-", "*", "/", "%", "=", "<",
    ">", "!", "&", "|", "^", "~", "?", ":"]

/-- The operators that name a symbol when they follow a colon, in the order in which they
are tried. -/
def operatorSymbols : List String :=
  ["[]=", "[]", "<=>", "===", "==", "=~", "!=", "!~", "**", "<=", ">=", "<<", ">>", "+@", "-@",
    "+", "-", "*", "/", "%", "<", ">", "!", "&", "|", "^", "~"]

/-- The first of the words with which a text begins. -/
def firstOf (words : List String) (cs : List Char) : Option String :=
  words.find? fun word => word.toList.isPrefixOf cs

/-- A name with its `?` or `!`, unless that begins `?=` or `!=`. -/
def wordLength (cs : List Char) : Nat :=
  let name := runLength isNameChar cs
  match cs.drop name with
  | '?' :: '=' :: _ | '!' :: '=' :: _ => name
  | '?' :: _ | '!' :: _ => name + 1
  | _ => name

/-- Whether a colon follows that makes a label of what stands before it. -/
def labelColon : List Char → Bool
  | ':' :: ':' :: _ => false
  | ':' :: _ => true
  | _ => false

/-- A digit or a separator of digits. -/
def isDigitOrBar (c : Char) : Bool := c.isDigit || c == '_'

/-- A hexadecimal digit or a separator of digits. -/
def isHexDigitOrBar (c : Char) : Bool :=
  c.isDigit || ('a' ≤ c && c ≤ 'f') || ('A' ≤ c && c ≤ 'F') || c == '_'

/-- A point and digits. -/
def fractionLength : List Char → Nat
  | '.' :: d :: cs => if d.isDigit then 1 + runLength isDigitOrBar (d :: cs) else 0
  | _ => 0

/-- An exponent: its mark, perhaps a sign, and digits. -/
def exponentLength : List Char → Nat
  | e :: cs =>
    if e = 'e' ∨ e = 'E' then
      match cs with
      | s :: d :: cs =>
        if s = '+' ∨ s = '-' then
          if d.isDigit then 2 + runLength Char.isDigit (d :: cs) else 0
        else if s.isDigit then 1 + runLength Char.isDigit (s :: d :: cs)
        else 0
      | [d] => if d.isDigit then 2 else 0
      | [] => 0
    else 0
  | [] => 0

/-- A decimal numeral: digits, perhaps a fraction, perhaps an exponent. -/
def decimalLength (cs : List Char) : Nat :=
  let whole := runLength isDigitOrBar cs
  let fraction := fractionLength (cs.drop whole)
  whole + fraction + exponentLength (cs.drop (whole + fraction))

/-- A numeral.  The one letter after a leading zero that marks a base lets all hexadecimal
digits follow. -/
def numeralLength : List Char → Nat
  | '0' :: b :: cs =>
    if b = 'x' ∨ b = 'X' ∨ b = 'b' ∨ b = 'B' ∨ b = 'o' ∨ b = 'O' then
      2 + runLength isHexDigitOrBar cs
    else decimalLength ('0' :: b :: cs)
  | cs => decimalLength cs

namespace Reader

/-- The token of the next `n` characters, and the reader behind it. -/
def take (r : Reader) (kind : Token.Kind) (gap : Gap) (n : Nat) (value : Option String := none) :
    Token × Reader :=
  let s := r.advance n
  (.between kind gap r.cursor s.cursor value, s)

/-- The next character, whatever it is, as a token of no known kind. -/
def stray (r : Reader) (gap : Gap) : Token × Reader :=
  match r.bump with
  | none => (.between .other gap r.cursor r.cursor, r)
  | some (_, s) => (.between .other gap r.cursor s.cursor, s)

/-- The longest punctuation, or else a stray character. -/
def punctuation (r : Reader) (gap : Gap) : Token × Reader :=
  match firstOf ConnectorAudit.punctuation r.rest with
  | some text => r.take .punctuation gap text.length
  | none => r.stray gap

/-- A comment, up to the end of its line. -/
def comment (r : Reader) (gap : Gap) : Token × Reader :=
  r.take .comment gap (runLength (· != '\n') r.rest)

def numeral (r : Reader) (gap : Gap) : Token × Reader :=
  r.take .numeral gap (numeralLength r.rest)

/-- A variable with a sigil: `@a`, `@@a`, `$a`, or `$` and any one character. -/
def sigilName (r : Reader) (gap : Gap) : Token × Reader :=
  let name := if r.cursor.startsWith "@@" then r.advance 2 else r.advance 1
  let n := runLength isNameChar name.rest
  let s :=
    if n = 0 ∧ r.rest.head? = some '$' then
      match name.bump with
      | none => name
      | some (_, s) => s
    else name.advance n
  (.between .identifier gap r.cursor s.cursor, s)

/-- The kind of a word, and the loop that may still take a `do` after it.  Behind a call
operator every word is a name; a loop keyword takes one `do` on its own line with it; `if`
and the loop keywords open a body only where a statement can begin. -/
def wordKind (r : Reader) (word : String) : Token.Kind × Option Nat :=
  let line := r.cursor.line
  let afterDot :=
    match r.previous with
    | some (.dot, _) => true
    | _ => false
  if afterDot then (.identifier, r.loopLine)
  else if word = "end" then (.blockEnd, r.loopLine)
  else if word = "do" then
    if r.loopLine = some line then (.identifier, none) else (.blockStart, r.loopLine)
  else if ["begin", "case", "def", "class", "module"].contains word then
    (.blockStart, r.loopLine)
  else if ["if", "unless"].contains word && r.statementPosition line then
    (.blockStart, r.loopLine)
  else if ["while", "until", "for"].contains word && r.statementPosition line then
    (.blockStart, some line)
  else (.identifier, r.loopLine)

/-- A word: a label if a colon clings to it, else a name or a keyword. -/
def word (r : Reader) (gap : Gap) : Token × Reader :=
  let n := wordLength r.rest
  let text := String.ofList (r.rest.take n)
  if labelColon (r.rest.drop n) && !r.afterQuestion then r.take .label gap (n + 1) (some text)
  else
    let (kind, loopLine) := r.wordKind text
    let (token, s) := r.take kind gap n
    (token, { s with loopLine })

end Reader

end ConnectorAudit
