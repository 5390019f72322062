import ConnectorAudit.Section
import ConnectorAudit.Token.Extent

/-!
# Fragments

What can still be read off a document that does not parse: the sections near its
top level, and the names of the actions, triggers and methods, found by counting
brackets on the tokens.  Nothing inside an entry is looked at.
-/

namespace ConnectorAudit

/-- A name found in a broken document. -/
structure Fragment where
  name : String
  loc : Location
  deriving DecidableEq, Repr

/-- What is found in a broken document. -/
structure Fragments where
  /-- The sections, under the keys as written, each where it first occurs. -/
  rootKeys : List (String × Location) := []
  actions : List Fragment := []
  triggers : List Fragment := []
  methods : List Fragment := []
  faults : List Fault := []
  deriving Repr

namespace Fragments

/-- The key of an entry that begins here, and the tokens of its value: `name:` or
`'name' =>`. -/
def entryKey? : List Token → Option (String × List Token)
  | [] => none
  | t :: rest =>
    match t.kind, t.value, rest with
    | .label, some key, _ => some (key, rest)
    | .string, some key, arrow :: value | .symbol, some key, arrow :: value =>
      if arrow.isPunct "=>" then some (key, value) else none
    | _, _, _ => none

/-- Where the value of an entry ends, if its brackets tell. -/
def entryStop? (source : String) (callable : Bool) : List Token → Option Nat
  | [] => none
  | t :: _ =>
    match t.kind with
    | .braceOpen => (Extent.delimited source t.offset '{' '}').toOption.map Span.stop
    | .identifier | .punctuation =>
      if callable then (Extent.block source t.offset).toOption.map Span.stop else none
    | _ => none

/-- The brackets and blocks open at some place inside a section. -/
structure Depth where
  braces : Nat := 0
  blocks : Nat := 0
  brackets : Nat := 0
  deriving DecidableEq, Repr

/-- The depth behind a token. -/
def Depth.take (d : Depth) (t : Token) : Depth :=
  match t.kind with
  | .braceOpen => { d with braces := d.braces + 1 }
  | .braceClose => { d with braces := d.braces - 1 }
  | .blockStart => { d with blocks := d.blocks + 1 }
  | .blockEnd => { d with blocks := d.blocks - 1 }
  | .punctuation =>
    if t.text == "(" || t.text == "[" then { d with brackets := d.brackets + 1 }
    else if t.text == ")" || t.text == "]" then { d with brackets := d.brackets - 1 }
    else d
  | _ => d

/-- The entries of a section from behind its opening brace up to the closing one.  If the
section is never closed, a known section that begins a line at `column` or left of it
ends it. -/
def entriesFrom (source : String) (callable : Bool) (column : Option Nat) :
    Depth → List Token → List Fragment
  | _, [] => []
  | depth, t :: rest =>
    if t.kind = .braceClose ∧ depth.braces = 0 then []
    else
      let depth := depth.take t
      match (if depth = {} then entryKey? (t :: rest) else none) with
      | none => entriesFrom source callable column depth rest
      | some (name, value) =>
        let sibling := t.gap.newline && column.any (t.column ≤ ·) && (Section.ofKey? name).isSome
        if sibling then []
        else
          let length := (entryStop? source callable value).map (· - t.offset)
          ⟨name, ⟨some t.line, some t.column, length⟩⟩ ::
            entriesFrom source callable column depth rest

/-- The entries of a section whose value is these tokens; none if it is no hash. -/
def sectionEntries (source : String) (callable : Bool) (column : Option Nat) :
    List Token → List Fragment
  | [] => []
  | t :: rest =>
    if t.kind = .braceOpen then entriesFrom source callable column {} rest else []

/-- The sections found so far, and what tells the next ones. -/
structure Progress where
  /-- Braces open. -/
  depth : Nat := 0
  /-- The column of the first section that begins a line. -/
  column : Option Nat := none
  found : Fragments := {}

/-- Keeps the first entries found for a section. -/
def keepFirst (old new : List Fragment) : List Fragment := if old.isEmpty then new else old

/-- Adds a section, found at `t` with the tokens `value`. -/
def addSection (source : String) (s : Section) (key : String) (t : Token) (value : List Token)
    (f : Fragments) : Fragments :=
  let column := if t.gap.newline then some t.column else none
  let rootKeys :=
    if (f.rootKeys.lookup key).isSome then f.rootKeys
    else f.rootKeys ++ [(key, t.span.location)]
  let f := { f with rootKeys }
  match s with
  | .actions =>
    { f with actions := keepFirst f.actions (sectionEntries source false column value) }
  | .triggers =>
    { f with triggers := keepFirst f.triggers (sectionEntries source false column value) }
  | .methods =>
    { f with methods := keepFirst f.methods (sectionEntries source true column value) }
  | _ => f

/-- Looks at the first of the tokens.  A section counts at the top level, and deeper down only
if it is aligned with the first section that began a line: then an earlier one was left
unclosed. -/
def Progress.look (source : String) (p : Progress) (tokens : List Token) : Progress :=
  match tokens with
  | [] => p
  | t :: _ =>
    let depth :=
      match t.kind with
      | .braceOpen => p.depth + 1
      | .braceClose => p.depth - 1
      | _ => p.depth
    let p := { p with depth }
    match entryKey? tokens with
    | none => p
    | some (key, value) =>
      match Section.ofKey? key with
      | none => p
      | some s =>
        let aligned := t.gap.newline && p.column == some t.column
        if 1 < depth && !aligned then p
        else
          { p with
            column := if t.gap.newline then p.column.orElse fun _ => some t.column else p.column
            found := addSection source s key t value p.found }

def lookAll (source : String) (p : Progress) : List Token → Progress
  | [] => p
  | t :: rest => lookAll source (p.look source (t :: rest)) rest

/-- What is found in a source. -/
def ofSource (source : String) : Fragments :=
  let (tokens, faults) := Token.scanLossy source
  let p := lookAll source {} (tokens.filter (·.kind != .comment))
  { p.found with faults }

end Fragments

end ConnectorAudit
