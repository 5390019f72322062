import ConnectorAudit.Output

/-!
# The command line

The arguments that the program takes.  An option has its value in the same word,
behind an equals sign, or in the next word.  A value is looked at when the next
option or file is met, or at the end; so a word that nothing can be made of is
reported before a bad value just in front of it.
-/

namespace ConnectorAudit

/-- What the program is asked to do. -/
structure Arguments where
  /-- The source. -/
  path : Option String := none
  /-- The folder that results are written to. -/
  outdir : String := "./out"
  output : OutputOptions := {}
  maxWarnings : Nat := defaultMaxWarnings
  deriving DecidableEq, Repr

namespace CommandLine

/-- Why there are no arguments to go on with. -/
inductive Stop where
  /-- A word that is no option, or a second file. -/
  | unknownArgument
  /-- A value that is missing, empty, or none of those allowed. -/
  | invalidValue
  /-- A value that is no number, or too large a one. -/
  | invalidNumber
  /-- An option given twice. -/
  | repeated
  /-- A value for an option that takes none. -/
  | unexpectedValue
  /-- Help is asked for. -/
  | help
  /-- The version is asked for. -/
  | version
  deriving DecidableEq, Repr

/-- What takes a value. -/
inductive Slot where
  | path
  | outdir
  | base
  | emit
  | graphName
  | maxWarnings
  deriving DecidableEq, Repr

/-- An option by its name. -/
inductive Item where
  | slot (s : Slot)
  /-- Whether JSON is laid out over lines. -/
  | pretty (on : Bool)
  | help
  | version
  deriving DecidableEq, Repr

def Item.ofName? : String → Option Item
  | "outdir" => some (.slot .outdir)
  | "base" => some (.slot .base)
  | "emit" => some (.slot .emit)
  | "graph-name" => some (.slot .graphName)
  | "max-warnings" => some (.slot .maxWarnings)
  | "pretty" => some (.pretty true)
  | "no-pretty" => some (.pretty false)
  | "help" => some .help
  | "version" => some .version
  | _ => none

def Item.ofLetter? : Char → Option Item
  | 'h' => some .help
  | 'V' => some .version
  | _ => none

/-! ## Values -/

/-- The largest number that a value may give. -/
def numberLimit : Nat := 18446744073709551615

/-- The number that decimal digits give. -/
def digits? (chars : List Char) : Option Nat :=
  if chars.isEmpty then none
  else chars.foldlM (fun n c => if c.isDigit then some (10 * n + (c.toNat - '0'.toNat)) else none) 0

/-- The number that a value gives: digits, perhaps with a plus sign in front. -/
def number? (value : String) : Option Nat :=
  let digits :=
    match value.toList with
    | '+' :: digits => digits
    | digits => digits
  (digits? digits).filter (· ≤ numberLimit)

/-- The formats that a value lists. -/
def formats? (value : String) : Option (List Format) := (value.splitOn ",").mapM Format.ofName?

/-- What has been given. -/
structure Given where
  path : Option String := none
  outdir : Option String := none
  base : Option String := none
  emit : Option (List Format) := none
  graphName : Option String := none
  maxWarnings : Option Nat := none
  pretty : Option Bool := none

namespace Given

/-- Whether a slot that takes one value has it. -/
def filled (g : Given) : Slot → Bool
  | .path => g.path.isSome
  | .outdir => g.outdir.isSome
  | .base => g.base.isSome
  | .graphName => g.graphName.isSome
  | .maxWarnings => g.maxWarnings.isSome
  | .emit => false

/-- Puts a value into a slot.  Formats are added to those given before; everything else may
be given once. -/
def put (g : Given) (s : Slot) (value : String) : Except Stop Given :=
  if g.filled s then throw .repeated
  else
    match s with
    | .path => if value = "" then throw .invalidValue else pure { g with path := some value }
    | .outdir => if value = "" then throw .invalidValue else pure { g with outdir := some value }
    | .base => pure { g with base := some value }
    | .graphName => pure { g with graphName := some value }
    | .maxWarnings =>
      match number? value with
      | none => throw .invalidNumber
      | some n => pure { g with maxWarnings := some n }
    | .emit =>
      match formats? value with
      | none => throw .invalidValue
      | some formats => pure { g with emit := some (g.emit.getD [] ++ formats) }

/-- Sets whether JSON is laid out; the later of two contrary wishes counts, and a wish must
not be repeated. -/
def setPretty (g : Given) (on : Bool) : Except Stop Given :=
  if g.pretty = some on then throw .repeated else pure { g with pretty := some on }

/-- What was given, and what holds otherwise. -/
def arguments (g : Given) : Arguments :=
  let otherwise : Arguments := {}
  { path := g.path
    outdir := g.outdir.getD otherwise.outdir
    output := {
      formats := g.emit.getD otherwise.output.formats
      base := g.base.getD otherwise.output.base
      pretty := g.pretty.getD otherwise.output.pretty
      graphName := g.graphName.getD otherwise.output.graphName }
    maxWarnings := g.maxWarnings.getD otherwise.maxWarnings }

end Given

/-! ## Words -/

/-- A slot whose value has not been looked at; the value may still be to come. -/
structure Pending where
  slot : Slot
  value : Option String

/-- How far the words have been read. -/
structure State where
  given : Given := {}
  pending : Option Pending := none
  /-- Whether a file has been met. -/
  hasPath : Bool := false
  /-- Whether the options are over. -/
  optionsOver : Bool := false

namespace State

/-- Looks at the pending value. -/
def settle (s : State) : Except Stop State :=
  match s.pending with
  | none => pure s
  | some ⟨_, none⟩ => throw .invalidValue
  | some ⟨slot, some value⟩ => do
    pure { s with given := ← s.given.put slot value, pending := none }

/-- The slot that waits for the next word. -/
def waiting? (s : State) : Option Slot :=
  match s.pending with
  | some ⟨slot, none⟩ => some slot
  | _ => none

/-- Takes an option, with the value in the same word if there is one. -/
def takeItem (s : State) (item : Item) (value : Option String) : Except Stop State :=
  match item, value with
  | .slot slot, some value => do
    let s ← s.settle
    pure { s with given := ← s.given.put slot value }
  | .slot slot, none => do pure { ← s.settle with pending := some ⟨slot, none⟩ }
  | _, some _ => throw .unexpectedValue
  | .pretty on, none => do
    let s ← s.settle
    pure { s with given := ← s.given.setPretty on }
  | .help, none => do
    let _ ← s.settle
    throw .help
  | .version, none => do
    let _ ← s.settle
    throw .version

def takePath (s : State) (word : String) : Except Stop State :=
  if s.hasPath then throw .unknownArgument
  else do pure { ← s.settle with pending := some ⟨.path, some word⟩, hasPath := true }

/-- Takes a word that is a value or a file. -/
def takePlain (s : State) (word : String) : Except Stop State :=
  match s.waiting? with
  | some slot => pure { s with pending := some ⟨slot, some word⟩ }
  | none => s.takePath word

/-- Takes a long option: its name, and its value behind an equals sign. -/
def takeLong (s : State) (body : List Char) : Except Stop State :=
  let name := body.takeWhile (· != '=')
  let value :=
    match body.dropWhile (· != '=') with
    | [] => none
    | _ :: value => some (String.ofList value)
  match Item.ofName? (String.ofList name) with
  | none => throw .unknownArgument
  | some item => s.takeItem item value

def take (s : State) (word : String) : Except Stop State :=
  if s.optionsOver then s.takePath word
  else
    match word.toList with
    | ['-', '-'] => pure { s with optionsOver := true }
    | '-' :: '-' :: body => s.takeLong body
    | '-' :: letter :: _ =>
      match Item.ofLetter? letter with
      | none => throw .unknownArgument
      | some item => s.takeItem item none
    | _ => s.takePlain word

end State

end CommandLine

/-- The arguments that the words behind the name of the program give. -/
def Arguments.ofWords (words : List String) : Except CommandLine.Stop Arguments := do
  let s ← words.foldlM CommandLine.State.take {}
  pure (← s.settle).given.arguments

end ConnectorAudit
