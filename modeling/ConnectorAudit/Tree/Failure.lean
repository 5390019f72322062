import ConnectorAudit.Token

/-!
# Why a source does not parse

A parse ends at the first thing that cannot stand where it stands.  The cause
names what was expected there instead.
-/

namespace ConnectorAudit

/-- What closes a list of statements or entries. -/
inductive Closer where
  /-- The end of the source. -/
  | eof
  | brace
  | paren
  | bracket
  /-- The keyword `end`. -/
  | keyword
  deriving DecidableEq, Repr

/-- The name of a closer, as messages give it. -/
def Closer.label : Closer → String
  | eof => "end of input"
  | brace => "`\x7d`"
  | paren => "`)`"
  | bracket => "`]`"
  | keyword => "`end`"

/-- What should have stood in a place. -/
inductive Expected where
  | closer (c : Closer)
  | expression
  | argument
  | methodName
  | parameterEnd
  | lambdaBody
  | bodyOpener
  deriving DecidableEq, Repr

/-- The name of what was expected, as messages give it. -/
def Expected.label : Expected → String
  | closer c => c.label
  | expression => "expression"
  | argument => "argument"
  | methodName => "method name"
  | parameterEnd => "end of parameter list"
  | lambdaBody => "lambda body"
  | bodyOpener => "`\x7b` or `do`"

/-- How many levels of nesting a source may have. -/
def nestingLimit : Nat := 256

/-- Why a source does not parse. -/
inductive ParseError where
  /-- It cannot be cut into tokens. -/
  | scan (fault : Fault)
  /-- A token stands where something else is expected. -/
  | unexpected (found : String) (expected : Expected) (line column : Nat)
  /-- The source ends where something is expected. -/
  | unexpectedEnd (expected : Expected)
  /-- It is nested too deeply. -/
  | tooDeep (line : Nat)
  deriving DecidableEq, Repr

namespace ParseError

def message : ParseError → String
  | scan fault => fault.message
  | unexpected found expected line column =>
    s!"unexpected `{found}` at line {line}, column {column}; expected {expected.label}"
  | unexpectedEnd expected => s!"unexpected end of input; expected {expected.label}"
  | tooDeep line => s!"nesting deeper than {nestingLimit} levels at line {line}"

/-- Line and column of an error, as far as it knows them. -/
def place : ParseError → Option Nat × Option Nat
  | scan (.unterminated _ line column) | scan (.unbalanced _ _ line column)
  | unexpected _ _ line column => (some line, some column)
  | scan (.nestedTooDeep line) | tooDeep line => (some line, none)
  | scan (.expectedOpener ..) | unexpectedEnd _ => (none, none)

end ParseError

/-- A parse that ended early, with what had been noted until then. -/
structure ParseFailure where
  error : ParseError
  notes : List String := []
  deriving DecidableEq, Repr

end ConnectorAudit
