import ConnectorAudit.Token
import ConnectorAudit.Tree.Failure

/-!
# What tokens can do

The classes of tokens that a parse decides by: what closes, what separates,
what continues an expression and what can begin one.
-/

namespace ConnectorAudit

/-- Words that separate the clauses of a keyword body and begin nothing. -/
def separatorWords : List String :=
  ["then", "else", "elsif", "when", "in", "rescue", "ensure", "do"]

/-- Words that continue an expression: `a and b`, `x if y`. -/
def operatorWords : List String :=
  ["and", "or", "if", "unless", "while", "until", "rescue"]

/-- Operators that can stand before their operand. -/
def unaryOperators : List String := ["!", "-", "+", "~", "*", "**", "&", "::", "..", "..."]

/-- Punctuation that never joins two operands. -/
def joinsNothing : List String := ["(", ")", "[", "]", ".", "&.", "::", "->", ";", "!", "~"]

/-- Where an expression stands. -/
structure Context where
  /-- A comma continues the expression. -/
  comma : Bool
  /-- `=>` continues the expression. -/
  rocket : Bool
  /-- The expression is an argument of a command without parentheses, so that a `do`
  belongs to the command and not to the argument. -/
  inCommand : Bool
  deriving DecidableEq, Repr

namespace Context

def statement : Context := ⟨true, true, false⟩

def argument (inCommand : Bool) : Context := ⟨false, false, inCommand⟩

end Context

/-- Whether a token closes what the closer stands for. -/
def Closer.matches (c : Closer) (t : Token) : Bool :=
  match c with
  | .eof => false
  | .brace => t.kind == .braceClose
  | .paren => t.isPunct ")"
  | .bracket => t.isPunct "]"
  | .keyword => t.kind == .blockEnd

namespace Token

/-- A token that closes something. -/
def isCloser (t : Token) : Bool :=
  t.kind == .braceClose || t.kind == .blockEnd || t.isPunct ")" || t.isPunct "]"

def isOperatorWord (t : Token) : Bool := t.kind == .identifier && operatorWords.contains t.text

def isSeparatorWord (t : Token) : Bool := t.kind == .identifier && separatorWords.contains t.text

/-- A token that stands between statements: `;`, clause words, and the `,` and `=>` of
rescue clauses. -/
def separatesStatements (t : Token) : Bool :=
  t.isPunct ";" || t.isPunct "," || t.isPunct "=>" || t.isSeparatorWord

/-- A token that can begin an operand. -/
def startsOperand (t : Token) : Bool :=
  match t.kind with
  | .braceClose | .blockEnd | .comment => false
  | .punctuation => ["(", "[", "->"].contains t.text || unaryOperators.contains t.text
  | .identifier => !t.isOperatorWord && !t.isSeparatorWord
  | _ => true

/-- A token that joins two operands. -/
def isBinary (t : Token) (ctx : Context) : Bool :=
  match t.kind with
  | .punctuation =>
    if t.text == "," then ctx.comma
    else if t.text == "=>" then ctx.rocket
    else !joinsNothing.contains t.text
  | .identifier => t.isOperatorWord
  | _ => false

/-- The token clings to the one before it. -/
def isGlued (t : Token) : Bool := !t.gap.space && !t.gap.newline

/-- An opening parenthesis that clings to a name. -/
def opensArguments (t : Token) : Bool := t.isPunct "(" && t.isGlued

/-- Whether `t`, followed by `next?`, begins the first argument of a call without
parentheses.  Signs count only if they cling to what follows. -/
def startsArgument (t : Token) (next? : Option Token) : Bool :=
  !t.gap.newline && t.gap.space &&
    match t.kind with
    | .string | .symbol | .numeral | .regex | .words | .command | .label => true
    | .identifier => !t.isOperatorWord && !t.isSeparatorWord
    | .punctuation =>
      if ["[", "->", "!", "::", "("].contains t.text then true
      else if ["-", "*", "&", "**", ":"].contains t.text then next?.any isGlued
      else false
    | _ => false

end Token

end ConnectorAudit
