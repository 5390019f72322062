import ConnectorAudit.Survey

/-!
# The entries of a section

The named entries of a section.  A key that is repeated keeps its first place and
gets its last value, and each repetition is an issue; entries with a computed key
never stand for each other.
-/

namespace ConnectorAudit

/-- An entry of a section: the name under which it goes, and its value. -/
structure SectionEntry where
  name : String
  body : Tree

/-- The entries of a section, as far as it has been read. -/
structure SectionEntries where
  entries : Array SectionEntry := #[]
  /-- Where the entry with a fixed key is. -/
  places : Table Nat := .empty

namespace SectionEntries

/-- The fixed key, if there is an entry with it. -/
def repeated? (es : SectionEntries) (key : Tree) : Option String :=
  key.literalName?.filter fun name => (es.places.get? name).isSome

/-- Puts in a pair: its value goes to the place of its key or, if that has none, behind all. -/
def put (es : SectionEntries) (key value : Tree) : SectionEntries :=
  match key.literalName? with
  | none => { es with entries := es.entries.push ⟨dynamicName, value⟩ }
  | some name =>
    match es.places.get? name with
    | some i => { es with entries := es.entries.modify i fun e => { e with body := value } }
    | none =>
      { entries := es.entries.push ⟨name, value⟩
        places := es.places.insert name es.entries.size }

end SectionEntries

/-- The issue of a repeated key in a section whose entries are each a `singular`. -/
def duplicateIssue (singular name : String) (key : Tree) : Issue :=
  ((Issue.warning ("duplicate_" ++ singular)
    s!"Duplicate {singular} `{name}`; the later definition is used").located
      key.span.location).about "name" name

/-- Reads one more pair of a section. -/
def SectionEntries.read (singular : String) (es : SectionEntries) (pair : Tree × Tree) :
    Surveying SectionEntries := do
  if let some name := es.repeated? pair.1 then
    Surveying.report (duplicateIssue singular name pair.1)
  return es.put pair.1 pair.2

/-- Reads the entries of a section whose entries are each a `singular`. -/
def Tree.readEntries (hash : Tree) (singular : String) : Surveying (List SectionEntry) := do
  let es ← hash.pairs.foldlM (SectionEntries.read singular) {}
  return es.entries.toList

/-- The issue of something that should be a hash. -/
def notHashIssue (code what : String) (t : Tree) : Issue :=
  (Issue.warning (code ++ "_not_hash") (what ++ " is not a hash")).located t.span.location

end ConnectorAudit
