import ConnectorAudit.Tree.Progress

/-!
# Parameter lists

The names between the bars of a block or the parentheses of a lambda, as they
are written: `a`, `b:`, `*c`, `**d`, `&e`, `(f, g)`.  Default values and the
block's own variables behind a `;` are passed over.
-/

namespace ConnectorAudit

/-- A parameter list, so far. -/
structure Parameters where
  /-- The finished parameters. -/
  done : List String := []
  /-- The parameter under way. -/
  current : String := ""
  /-- Brackets that are open, of a pattern or of a default value. -/
  nesting : Nat := 0
  /-- Inside a default value. -/
  skipping : Bool := false
  /-- Among the block's own variables. -/
  locals : Bool := false
  deriving DecidableEq, Repr

namespace Parameters

/-- The list with the parameter under way finished, if there is one. -/
def finish (p : Parameters) : Parameters :=
  if p.current.isEmpty then p else { p with done := p.done ++ [p.current], current := "" }

/-- Adds text to the parameter under way, unless a default value is being passed over. -/
def add (p : Parameters) (text : String) : Parameters :=
  if p.skipping then p else { p with current := p.current ++ text }

/-- The list after one more token. -/
def take (p : Parameters) (t : Token) : Parameters :=
  if p.locals then p
  else
    match t.kind with
    | .braceOpen => { p with nesting := p.nesting + 1 }
    | .braceClose => { p with nesting := p.nesting - 1 }
    | .identifier => p.add t.text
    | .label => { p.add t.text with skipping := true }
    | .punctuation =>
      match t.text with
      | "[" => { p with nesting := p.nesting + 1 }
      | "]" => { p with nesting := p.nesting - 1 }
      | "(" => { p.add "(" with nesting := p.nesting + 1 }
      | ")" => { p.add ")" with nesting := p.nesting - 1 }
      | "," => if p.nesting = 0 then { p.finish with skipping := false } else p.add ", "
      | ";" => if p.nesting = 0 then { p with locals := true } else p
      | "*" | "**" | "&" => if p.current.isEmpty then { p with current := t.text } else p
      | "=" => { p with skipping := true }
      | _ => p
    | _ => p

end Parameters

/-- Reads parameters through the punctuation that ends them. -/
def parameters (terminator : String) (ps : Parameters) (p : Progress) :
    Except ParseFailure (List String × Progress) :=
  match h : p.next? with
  | none => p.failAtEnd .parameterEnd
  | some (t, q) =>
    have := Progress.left_next? h
    if ps.nesting = 0 ∧ t.isPunct terminator then .ok (ps.finish.done, q)
    else if ps.nesting = 0 ∧ t.isCloser then p.failAt t .parameterEnd
    else parameters terminator (ps.take t) q
termination_by p.left

/-- The parameters between bars at the head of a block, if it has any. -/
def blockParameters (p : Progress) : Except ParseFailure (List String × Progress) :=
  match p.next? with
  | none => .ok ([], p)
  | some (t, q) =>
    if t.isPunct "||" then .ok ([], q)
    else if t.isPunct "|" then parameters "|" {} q
    else .ok ([], p)

/-- A token that can stand among the parameters of an arrow lambda without parentheses. -/
def Token.isBareParameter (t : Token) : Bool :=
  (t.kind == .identifier || t.kind == .label || t.isPunct "," || t.isPunct "*" ||
    t.isPunct "&") && !t.gap.newline

/-- The parameters of an arrow lambda without parentheses: the tokens up to its body, as
they stand, behind those already read, last first. -/
def bareParameters (params : List String) (p : Progress) : List String × Progress :=
  match h : p.next? with
  | none => (params.reverse, p)
  | some (t, q) =>
    have := Progress.left_next? h
    if t.isBareParameter then
      bareParameters (if t.isPunct "," then params else t.text :: params) q
    else (params.reverse, p)
termination_by p.left

/-- The parameters of an arrow lambda. -/
def lambdaParameters (p : Progress) : Except ParseFailure (List String × Progress) :=
  match p.next? with
  | none => .ok ([], p)
  | some (t, q) => if t.isPunct "(" then parameters ")" {} q else .ok (bareParameters [] p)

/-- Passes over the signature of a definition on `line`, with `parens` parentheses open.
Says whether it ends in the `=` of a definition without `end`. -/
def signature (line parens : Nat) (p : Progress) : Bool × Progress :=
  match h : p.next? with
  | none => (false, p)
  | some (t, q) =>
    have := Progress.left_next? h
    if parens = 0 ∧ (t.line ≠ line ∨ t.isPunct ";" ∨ t.isCloser) then (false, p)
    else if t.isPunct "(" then signature line (parens + 1) q
    else if t.isPunct ")" then signature line (parens - 1) q
    else if parens = 0 ∧ t.isPunct "=" then (true, q)
    else signature line parens q
termination_by p.left

end ConnectorAudit
