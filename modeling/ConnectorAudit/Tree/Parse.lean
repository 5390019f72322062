import ConnectorAudit.Text.Blank
import ConnectorAudit.Tree.Parameters

/-!
# Parsing

From tokens to a tree.  Five kinds of rule call each other: statements, entries
(of arguments, arrays and hashes), one entry, an expression, and an operand with
what clings to it.  Every call to a part goes one level down, so a `Level` holds
the five rules for the parts, `Level.above` builds from it the rules for the
whole, and `levelAt` stacks as many levels as a source may be nested.  At the
bottom every rule fails.

The loops inside a level go on only as long as they use up tokens.
-/

namespace ConnectorAudit

/-- An entry of a list of arguments or of a hash. -/
inductive Entry where
  /-- A value without a key. -/
  | positional (tree : Tree)
  /-- A key and its value. -/
  | pair (tree : Tree)

def Entry.tree : Entry → Tree
  | positional tree => tree
  | pair tree => tree

/-- The hash of a run of pairs; nothing if the run is empty. -/
def Tree.ofRun : List Tree → List Tree
  | [] => []
  | first :: rest =>
    [⟨.hash, first.span.through ((first :: rest).getLast (by simp)).span, first :: rest⟩]

/-- The arguments that entries stand for: a run of pairs is one hash.  `run` holds the
pairs under way, last first. -/
def collectArguments (run : List Tree) : List Entry → List Tree
  | [] => Tree.ofRun run.reverse
  | .pair tree :: entries => collectArguments (tree :: run) entries
  | .positional tree :: entries => Tree.ofRun run.reverse ++ tree :: collectArguments [] entries

/-- The rules for the parts of something. -/
structure Level where
  statements : Closer → Rule (List Tree)
  entries : Option Closer → Rule (List Entry)
  entry : (inCommand : Bool) → Rule Entry
  expression : Context → Rule Tree
  operand : Context → Rule Tree

namespace Level

/-! ## Loops -/

/-- Statements up to a closer, which is left in place. -/
def statementLoop (expression : Rule Tree) (c : Closer) (done : List Tree) (p : Progress) :
    Except ParseFailure (List Tree × Progress) :=
  match h : p.next? with
  | none => if c = .eof then .ok (done.reverse, p) else p.failAtEnd (.closer c)
  | some (t, q) =>
    have := Progress.left_next? h
    if c.matches t then .ok (done.reverse, p)
    else if t.isCloser then p.failAt t (.closer c)
    else if t.separatesStatements then statementLoop expression c done q
    else
      match expression p with
      | .error failure => .error failure
      | .ok (tree, q) =>
        if q.left < p.left then statementLoop expression c (tree :: done) q
        else .ok ((tree :: done).reverse, q)
termination_by p.left

/-- The operands behind the first one of an expression, each with the operator before it.  An
operator with nothing behind it ends the expression. -/
def operandLoop (operand : Rule Tree) (ctx : Context) (done : List Tree) (p : Progress) :
    Except ParseFailure (List Tree × Progress) :=
  match p.next? with
  | none => .ok (done.reverse, p)
  | some (t, q) =>
    if t.gap.newline || !t.isBinary ctx then .ok (done.reverse, p)
    else if q.peek?.all fun next => next.isCloser || next.isPunct ";" then .ok (done.reverse, q)
    else
      match operand q with
      | .error failure => .error failure
      | .ok (tree, r) =>
        if r.left < p.left then operandLoop operand ctx (tree :: done) r
        else .ok ((tree :: done).reverse, r)
termination_by p.left

/-- Whether a list of entries ends here, and where the parse stands then.  With a closer, the
closer is used up; without one, anything that closes or separates ends the list. -/
def entriesEnd? (c : Option Closer) (p : Progress) : Except ParseFailure (Option Progress) :=
  match c, p.next? with
  | some c, none => p.failAtEnd (.closer c)
  | some c, some (t, q) =>
    if c.matches t then .ok (some q)
    else if t.isCloser then p.failAt t (.closer c)
    else .ok none
  | none, none => .ok (some p)
  | none, some (t, _) => .ok (if t.isCloser || t.isPunct ";" then some p else none)

/-- What follows an entry: whether another one may come, and where the parse stands then.
With a closer, a missing comma is only noted. -/
def afterEntry (c : Option Closer) (p : Progress) : Except ParseFailure (Bool × Progress) :=
  match c, p.next? with
  | none, none => .ok (false, p)
  | some _, none => .ok (true, p)
  | none, some (t, q) => .ok (if t.isPunct "," then (true, q) else (false, p))
  | some c, some (t, q) =>
    if t.isPunct "," then .ok (true, q)
    else if c.matches t then .ok (true, p)
    else if t.isCloser then p.failAt t (.closer c)
    else .ok (true, p.noteToken t "missing comma before")

/-- Entries up to a closer, which is used up; or, without a closer, up to the first entry that
no comma follows. -/
def entryLoop (entry : Rule Entry) (c : Option Closer) (done : List Entry) (p : Progress) :
    Except ParseFailure (List Entry × Progress) :=
  match entriesEnd? c p with
  | .error failure => .error failure
  | .ok (some q) => .ok (done.reverse, q)
  | .ok none =>
    match entry p with
    | .error failure => .error failure
    | .ok (e, q) =>
      match afterEntry c q with
      | .error failure => .error failure
      | .ok (more, r) =>
        if more && r.left < p.left then entryLoop entry c (e :: done) r
        else .ok ((e :: done).reverse, r)
termination_by p.left
decreasing_by simp_all

/-- Entries as long as a comma and another label follow. -/
def labelLoop (entry : Rule Entry) (done : List Tree) (p : Progress) :
    Except ParseFailure (List Tree × Progress) :=
  match entry p with
  | .error failure => .error failure
  | .ok (e, q) =>
    let more := q.peek?.any (·.isPunct ",") && q.peekSecond?.any (·.kind == .label)
    if more && q.skip.left < p.left then labelLoop entry (e.tree :: done) q.skip
    else .ok ((e.tree :: done).reverse, q)
termination_by p.left
decreasing_by simp_all

/-- Takes what clings to a node, piece by piece, as `step` reads it. -/
def clingLoop (step : Tree → Progress → Except ParseFailure (Option (Tree × Progress)))
    (tree : Tree) (p : Progress) : Except ParseFailure (Tree × Progress) :=
  match step tree p with
  | .error failure => .error failure
  | .ok none => .ok (tree, p)
  | .ok (some (tree, q)) =>
    if q.left < p.left then clingLoop step tree q else .ok (tree, q)
termination_by p.left

/-! ## Literals -/

/-- The trees of the code inside a literal.  It is parsed on its own; what is noted there
counts only if all of it parses. -/
def interpolated (below : Level) (t : Token) (notes : List String) :
    Except ParseFailure (List Tree × List String) :=
  if t.nested.isEmpty then .ok ([], notes)
  else
    match below.statements .eof (.ofTokens t.nested t.span) with
    | .error failure => .error ⟨failure.error, notes⟩
    | .ok (trees, inner) => .ok (trees, notes ++ inner.notes)

/-- The literal that a token stands for. -/
def literalOf (t : Token) : Literal :=
  match t.kind, t.value with
  | .string, some value => .string value
  | .string, none => .dynamicString
  | .symbol, some value => .symbol value
  | .symbol, none => .dynamicSymbol
  | .command, _ => .command
  | .regex, _ => .regex
  | .words, value => .words (Text.words (value.getD ""))
  | _, _ => .number t.text

/-- A string literal followed by another string token. -/
def joinLiteral (literal : Literal) (t : Token) : Literal :=
  match literal, t.value with
  | .string head, some tail => .string (head ++ tail)
  | _, _ => .dynamicString

/-- Adds to a string the strings that follow it on the line. -/
def stringLoop (below : Level) (literal : Literal) (span : Span) (children : List Tree)
    (p : Progress) : Except ParseFailure (Tree × Progress) :=
  match h : p.next? with
  | none => .ok (⟨.literal literal, span, children⟩, p)
  | some (t, q) =>
    have := Progress.left_next? h
    if t.kind = .string ∧ ¬t.gap.newline then
      match interpolated below t q.notes with
      | .error failure => .error failure
      | .ok (trees, notes) =>
        have : ({ q with notes } : Progress).left = q.left := rfl
        stringLoop below (joinLiteral literal t) (span.through t.span) (children ++ trees)
          { q with notes }
    else .ok (⟨.literal literal, span, children⟩, p)
termination_by p.left

/-- A literal, from behind its first token `t`. -/
def literal (below : Level) (t : Token) (p : Progress) : Except ParseFailure (Tree × Progress) := do
  let (children, notes) ← interpolated below t p.notes
  let p := { p with notes }
  if t.kind = .string then stringLoop below (literalOf t) t.span children p
  else return (⟨.literal (literalOf t), t.span, children⟩, p)

/-! ## Bodies and arguments -/

/-- The parameters, the body and the closer of a block, from behind its opener. -/
def blockRest (below : Level) (c : Closer) (p : Progress) :
    Except ParseFailure (List String × List Tree × Progress) := do
  let (params, p) ← blockParameters p
  let (body, p) ← below.statements c p
  let p ← p.expect c
  return (params, body, p)

/-- The arguments of a call, in parentheses or without; none if no arguments follow. -/
def arguments? (below : Level) (p : Progress) :
    Except ParseFailure (Option (List Tree) × Progress) := do
  if p.peek?.any Token.opensArguments then
    let (entries, p) ← below.entries (some .paren) p.skip
    return (some (collectArguments [] entries), p)
  else if p.argumentFollows then
    let (entries, p) ← below.entries none p
    return (some (collectArguments [] entries), p)
  else return (none, p)

/-! ## What clings to an operand -/

/-- Whether a block can be attached to the node. -/
def acceptsBlock (tree : Tree) : Bool :=
  match tree.kind with
  | .identifier _ | .call _ _ _ false => true
  | _ => false

/-- Whether a block attached to the node makes it a callable. -/
def makesCallable (tree : Tree) : Bool :=
  match tree.kind with
  | .identifier name | .call name false _ _ => name == "lambda" || name == "proc"
  | .call name true 0 _ => name == "new" && tree.receiver?.any (·.kind == .identifier "Proc")
  | _ => false

/-- The node with a block attached to it; the block has the span `blockSpan`, and both
together have the span `span`. -/
def withBlock (tree : Tree) (params : List String) (body : List Tree) (blockSpan span : Span) :
    Tree :=
  if makesCallable tree then ⟨.callable params, span, body⟩
  else
    let block : Tree := ⟨.block params, blockSpan, body⟩
    match tree.kind with
    | .call name receiver args _ =>
      ⟨.call name receiver args true, span, tree.children ++ [block]⟩
    | .identifier name => .ofCall name none [] (some block) span
    | _ => ⟨.group, span, [tree, block]⟩

/-- Attaches the block whose opener `t` was just used. -/
def attachBlock (below : Level) (tree : Tree) (t : Token) (p : Progress) :
    Except ParseFailure (Tree × Progress) := do
  let c := if t.kind = .braceOpen then Closer.brace else Closer.keyword
  let (params, body, p) ← blockRest below c p
  return (withBlock tree params body (t.span.through p.last) (tree.span.through p.last), p)

/-- The name of a method behind a call operator.  A parenthesis stands for `call` and is left
in place; `[]` and `[]=` are names too. -/
def methodName (p : Progress) : Except ParseFailure (String × Progress) :=
  match p.next? with
  | none => p.failAtEnd .methodName
  | some (t, q) =>
    if t.isPunct "(" then .ok ("call", p)
    else if t.isPunct "[" && q.peek?.any fun u => u.isPunct "]" && !u.gap.space then
      let r := q.skip
      if r.peek?.any fun u => u.isPunct "=" && !u.gap.space then .ok ("[]=", r.skip)
      else .ok ("[]", r)
    else
      match t.kind with
      | .identifier | .blockStart | .blockEnd | .punctuation => .ok (t.text, q)
      | _ => p.failAt t .methodName

/-- A call on a receiver, from behind the call operator. -/
def methodCall (below : Level) (receiver : Tree) (p : Progress) :
    Except ParseFailure (Tree × Progress) := do
  let (name, p) ← methodName p
  let (args, p) ← arguments? below p
  return (.ofCall name (some receiver) (args.getD []) none (receiver.span.through p.last), p)

/-- The path of a constant, or a call, from behind `::`. -/
def qualified (below : Level) (tree : Tree) (p : Progress) :
    Except ParseFailure (Tree × Progress) :=
  match tree.kind, p.next? with
  | .identifier scope, some (t, q) =>
    if t.kind = .identifier ∧ ¬q.peek?.any fun u => u.isPunct "(" && !u.gap.space then
      .ok (.leaf (.identifier (scope ++ "::" ++ t.text)) (tree.span.through q.last), q)
    else methodCall below tree p
  | _, _ => methodCall below tree p

/-- The next thing that clings to a node: a method call, a path, an index or a block. -/
def cling? (below : Level) (inCommand : Bool) (tree : Tree) (p : Progress) :
    Except ParseFailure (Option (Tree × Progress)) :=
  match p.next? with
  | none => .ok none
  | some (t, q) =>
    let opensDo := t.kind == .blockStart && t.text == "do"
    let opensBlock := t.kind == .braceOpen || (opensDo && !inCommand)
    if t.isPunct "." || t.isPunct "&." then some <$> methodCall below tree q
    else if t.isPunct "::" && t.isGlued then some <$> qualified below tree q
    else if t.isPunct "[" && t.isGlued then do
      let (entries, q) ← below.entries (some .bracket) q
      let args := collectArguments [] entries
      return some (.ofCall "[]" (some tree) args none (tree.span.through q.last), q)
    else if !t.gap.newline && opensBlock && acceptsBlock tree then
      some <$> attachBlock below tree t q
    else .ok none

/-- A node with all that clings to it. -/
def clinging (below : Level) (inCommand : Bool) (tree : Tree) (p : Progress) :
    Except ParseFailure (Tree × Progress) :=
  clingLoop (cling? below inCommand) tree p

/-! ## Operands -/

/-- A group in parentheses, from behind the opening one `t`. -/
def parenthesised (below : Level) (t : Token) (p : Progress) :
    Except ParseFailure (Tree × Progress) := do
  let (statements, p) ← below.statements .paren p
  let p ← p.expect .paren
  return (⟨.group, t.span.through p.last, statements⟩, p)

/-- An array, from behind its opening bracket `t`. -/
def array (below : Level) (t : Token) (p : Progress) : Except ParseFailure (Tree × Progress) := do
  let (entries, p) ← below.entries (some .bracket) p
  return (⟨.array, t.span.through p.last, collectArguments [] entries⟩, p)

/-- Notes the entries of a hash that have no key; groups, which splats become, may stand
there. -/
def noteKeyless (entries : List Entry) (p : Progress) : Progress :=
  entries.foldl (fun p entry =>
    match entry with
    | .pair _ => p
    | .positional tree =>
      if tree.kind == .group then p
      else p.note s!"line {tree.span.line}, column {tree.span.column}: hash entry without a key") p

/-- A hash, or a block if parameters follow, from behind the opening brace `t`. -/
def braced (below : Level) (t : Token) (p : Progress) : Except ParseFailure (Tree × Progress) := do
  if p.peek?.any fun u => u.isPunct "|" || u.isPunct "||" then
    let (params, body, p) ← blockRest below .brace p
    return (⟨.block params, t.span.through p.last, body⟩, p)
  else
    let (entries, p) ← below.entries (some .brace) p
    let p := noteKeyless entries p
    return (⟨.hash, t.span.through p.last, entries.map Entry.tree⟩, p)

/-- A body from behind its keyword `t` through its `end`.  A definition may do without: then
one expression behind a `=` is its body. -/
def keywordBody (below : Level) (inCommand : Bool) (t : Token) (p : Progress) :
    Except ParseFailure (Tree × Progress) := do
  if t.text = "do" then
    let (params, body, p) ← blockRest below .keyword p
    return (⟨.block params, t.span.through p.last, body⟩, p)
  else
    let (endless, p) := if t.text = "def" then signature t.line 0 p else (false, p)
    if endless then
      let (body, p) ← below.expression { Context.statement with inCommand } p
      return (⟨.group, t.span.through p.last, [body]⟩, p)
    else
      let (body, p) ← below.statements .keyword p
      let p ← p.expect .keyword
      return (⟨.group, t.span.through p.last, body⟩, p)

/-- An arrow lambda, from behind its arrow `t`. -/
def arrowLambda (below : Level) (t : Token) (p : Progress) :
    Except ParseFailure (Tree × Progress) := do
  let (params, p) ← lambdaParameters p
  match p.next? with
  | none => p.failAtEnd .lambdaBody
  | some (opener, q) =>
    let body (c : Closer) : Except ParseFailure (Tree × Progress) := do
      let (own, body, p) ← blockRest below c q
      return (⟨.callable (params ++ own), t.span.through p.last, body⟩, p)
    if opener.kind = .braceOpen then body .brace
    else if opener.kind = .blockStart ∧ opener.text = "do" then body .keyword
    else p.failAt opener .bodyOpener

/-- A hash without braces. -/
def bareHash (below : Level) (inCommand : Bool) (p : Progress) :
    Except ParseFailure (Tree × Progress) := do
  let (pairs, p) ← labelLoop (below.entry inCommand) [] p
  match pairs with
  | [] => return (⟨.hash, p.last, []⟩, p)
  | first :: rest => return (⟨.hash, first.span.through p.last, first :: rest⟩, p)

/-- An operator before its operand, from behind the operator `t`. -/
def unary (below : Level) (ctx : Context) (t : Token) (p : Progress) :
    Except ParseFailure (Tree × Progress) := do
  if p.peek?.any fun next => next.startsOperand && !next.gap.newline then
    let (operand, p) ← below.operand ctx p
    return (⟨.group, t.span.through p.last, [operand]⟩, p)
  else return (.leaf (.identifier t.text) t.span, p)

/-- A jump word or `not`, with its value if one follows, from behind the word `t`. -/
def jump (below : Level) (ctx : Context) (t : Token) (p : Progress) :
    Except ParseFailure (Tree × Progress) := do
  let word := Tree.leaf (.identifier t.text) t.span
  if p.peek?.any fun next => next.startsOperand && !next.gap.newline then
    let (value, p) ← below.expression { ctx with comma := t.text != "not" } p
    return (⟨.group, t.span.through p.last, [word, value]⟩, p)
  else return (word, p)

/-- A name and, if arguments follow, the call of it, from behind the name `t`. -/
def named (below : Level) (t : Token) (p : Progress) :
    Except ParseFailure (Tree × Progress) := do
  match ← arguments? below p with
  | (some args, p) => return (.ofCall t.text none args none (t.span.through p.last), p)
  | (none, p) => return (.leaf (.identifier t.text) t.span, p)

/-- What begins with a name, from behind the name `t`. -/
def word (below : Level) (ctx : Context) (t : Token) (p : Progress) :
    Except ParseFailure (Tree × Progress) :=
  let value (literal : Literal) :=
    clinging below ctx.inCommand (.leaf (.literal literal) t.span) p
  match t.text with
  | "nil" => value .nil
  | "true" => value .true
  | "false" => value .false
  | "return" | "next" | "break" | "not" => jump below ctx t p
  | _ => do
    let (tree, p) ← named below t p
    clinging below ctx.inCommand tree p

/-- What begins with punctuation, from behind that punctuation `t`.  A unary operator takes
its operand with all that clings to it. -/
def punctuated (below : Level) (ctx : Context) (t : Token) (p : Progress) :
    Except ParseFailure (Tree × Progress) := do
  let primary (rule : Except ParseFailure (Tree × Progress)) := do
    let (tree, p) ← rule
    clinging below ctx.inCommand tree p
  match t.text with
  | "(" => primary (parenthesised below t p)
  | "[" => primary (array below t p)
  | "->" => primary (arrowLambda below t p)
  | text =>
    if unaryOperators.contains text then unary below ctx t p
    else
      let p := p.noteToken t "skipped stray"
      clinging below ctx.inCommand (.leaf (.identifier text) t.span) p

/-! ## The five rules -/

/-- An operand with all that clings to it. -/
def operandAbove (below : Level) (ctx : Context) : Rule Tree := fun p =>
  match p.next? with
  | none => p.failAtEnd .expression
  | some (t, q) =>
    let primary (rule : Except ParseFailure (Tree × Progress)) := do
      let (tree, p) ← rule
      clinging below ctx.inCommand tree p
    if t.isCloser then p.failAt t .expression
    else
      match t.kind with
      | .punctuation => punctuated below ctx t q
      | .braceOpen => primary (braced below t q)
      | .blockStart => primary (keywordBody below ctx.inCommand t q)
      | .label => primary (bareHash below ctx.inCommand p)
      | .identifier => word below ctx t q
      | .string | .symbol | .command | .regex | .words | .numeral => primary (literal below t q)
      | .comment | .other | .braceClose | .blockEnd =>
        clinging below ctx.inCommand (.leaf (.identifier t.text) t.span) q

/-- An operand, or a group of operands with operators between them. -/
def expressionAbove (below : Level) (ctx : Context) : Rule Tree := fun p => do
  let (first, p) ← below.operand ctx p
  let (rest, p) ← operandLoop (below.operand ctx) ctx [] p
  if rest.isEmpty then return (first, p)
  else return (⟨.group, first.span.through p.last, first :: rest⟩, p)

/-- A labelled value, or an expression and perhaps, behind `=>`, its value.  A label that
stands alone is short for a variable of its name. -/
def entryAbove (below : Level) (inCommand : Bool) : Rule Entry := fun p =>
  let ctx := Context.argument inCommand
  match p.next? with
  | none => p.failAtEnd .argument
  | some (t, q) =>
    if t.kind = .label then do
      let name := t.value.getD ""
      let key := Tree.leaf (.literal (.symbol name)) t.span
      if q.peek?.all fun next => next.isPunct "," || next.isCloser then
        return (.pair (.ofPair key (.leaf (.identifier name) t.span)), q)
      else
        let (value, q) ← below.expression ctx q
        return (.pair (.ofPair key value), q)
    else do
      let (tree, p) ← below.expression ctx p
      if p.peek?.any (·.isPunct "=>") then
        let (value, p) ← below.expression ctx p.skip
        return (.pair (.ofPair tree value), p)
      else return (.positional tree, p)

/-- Every rule refuses to go deeper. -/
def bottom : Level where
  statements _ p := p.failTooDeep
  entries _ p := p.failTooDeep
  entry _ p := p.failTooDeep
  expression _ p := p.failTooDeep
  operand _ p := p.failTooDeep

/-- The rules for what has its parts at the level `below`. -/
def above (below : Level) : Level where
  statements c p := statementLoop (below.expression .statement) c [] p
  entries c p := entryLoop (entryAbove below c.isNone) c [] p
  entry := entryAbove below
  expression := expressionAbove below
  operand := operandAbove below

/-- The rules where `n` levels of nesting are still allowed.  An entry has no level of its
own: where none is left it can still be read, if its value needs none. -/
def levelAt : Nat → Level
  | 0 => { bottom with entry := entryAbove bottom }
  | n + 1 => above (levelAt n)

end Level

/-! ## Whole sources -/

structure Parsed where
  tree : Tree
  /-- What was passed over or mended on the way. -/
  notes : List String

/-- The program of a list of statements. -/
def Tree.ofStatements (statements : List Tree) : Tree :=
  match statements with
  | [] => ⟨.program, { line := 1 }, []⟩
  | first :: rest =>
    ⟨.program, first.span.through ((first :: rest).getLast (by simp)).span, first :: rest⟩

namespace Parsed

def ofTokens (tokens : List Token) : Except ParseFailure Parsed := do
  let level := Level.levelAt (nestingLimit + 1)
  let (statements, p) ← level.statements .eof (.ofTokens tokens {})
  return ⟨.ofStatements statements, p.notes⟩

def ofSource (source : String) : Except ParseFailure Parsed :=
  match Token.scan source with
  | .error fault => .error ⟨.scan fault, []⟩
  | .ok tokens => ofTokens tokens

end Parsed

end ConnectorAudit
