import ConnectorAudit.Outline.Parts
import ConnectorAudit.Tree.Document

/-!
# The outline of a document

The passes over a source: command literals anywhere in it, keys of the document
that name no section, what the sections hold, and references to names that
nothing declares.  They give the outline of the document.
-/

namespace ConnectorAudit

/-- The name of a document without a title. -/
def untitled : String := "(untitled)"

/-- The name of the outline of a source that holds no document. -/
def noConnector : String := "(no connector)"

/-- The sections that the outline shows, in its order. -/
def outlinedSections : List Section :=
  [.connection, .test, .methods, .objectDefinitions, .actions, .triggers, .pickLists]

namespace Section

def value? (s : Section) (document : Tree) : Option Tree :=
  match s with
  | .pickLists => (document.get? s.key).orElse fun _ => document.get? pickListsAlias
  | _ => document.get? s.key

/-- The pass over a section; it gives the outline, if the section has one. -/
def survey? (s : Section) (value : Tree) : Surveying (Option Outline) :=
  match s with
  | .connection => some <$> Connection.survey value
  | .test => some <$> ConnectionTest.survey value
  | .methods => some <$> Methods.survey value
  | .objectDefinitions => some <$> DeclarationRules.objectDefinitions.survey value
  | .actions => some <$> OperationRules.actions.survey value
  | .triggers => some <$> OperationRules.triggers.survey value
  | .pickLists => some <$> DeclarationRules.pickLists.survey value
  | .title | .secureTunnel | .webhookKeys | .streams | .customAction | .customActionHelp =>
    pure none

end Section

namespace Tree

def commandIssue (t : Tree) : Issue :=
  (Issue.warning "dangerous_xstr" "Command substitution literal").located t.span.location

def flagCommands (program : Tree) : Surveying Unit :=
  modify (program.fold fun s t =>
    if t.kind == .literal .command then s.addIssue t.commandIssue else s)

/-- The fixed keys of a document where each first occurs. -/
def firstKeys (seen : List String) : List Tree → List (String × Tree)
  | [] => []
  | key :: keys =>
    match key.literalName? with
    | none => firstKeys seen keys
    | some name =>
      if seen.contains name then firstKeys seen keys
      else (name, key) :: firstKeys (name :: seen) keys

/-- The keys of a document that name no section. -/
def unknownKeyIssues (document : Tree) : List Issue :=
  (firstKeys [] (document.pairs.map Prod.fst)).filterMap fun (name, key) =>
    if (Section.ofKey? name).isNone && !Section.extraKeys.contains name then
      some (((Issue.info "unknown_root_key" s!"Unknown root key `{name}`").located
        key.span.location).about "key" name)
    else none

/-! ## References -/

/-- The object definition that a node refers to: `object_definitions['name']`. -/
def objectReference? (t : Tree) : Option String :=
  match t.kind with
  | .call "[]" _ _ _ =>
    if t.receiver?.any (·.kind == .identifier "object_definitions") then
      t.args.head?.bind literalName?
    else none
  | _ => none

/-- The pick list that a node refers to: `pick_list: 'name'`. -/
def pickListReference? (t : Tree) : Option String :=
  match t.keyValue? with
  | some (key, value) => if key.literalName? = some "pick_list" then value.literalName? else none
  | none => none

/-- Names referred to, each with the place where that first happens, in order. -/
structure References where
  objects : List (String × Location) := []
  pickLists : List (String × Location) := []

/-- Adds a name with its place, unless the name is there. -/
def noteFirst (found : List (String × Location)) (name : String) (loc : Location) :
    List (String × Location) :=
  if found.any (name == ·.1) then found else found ++ [(name, loc)]

/-- Takes in what a node refers to. -/
def References.note (found : References) (t : Tree) : References :=
  let objects := t.objectReference?.elim found.objects fun name =>
    noteFirst found.objects name t.span.location
  let pickLists := t.pickListReference?.elim found.pickLists fun name =>
    noteFirst found.pickLists name t.span.location
  { objects, pickLists }

end Tree

/-- The issue of an object definition that is referred to and not declared. -/
def Issue.missingObject (e : String × Location) : Issue :=
  ((warning "missing_object_definition"
    s!"Object definition `{e.1}` is referenced but not declared").located e.2).about "name" e.1

/-- The issue of a pick list that is referred to and not declared. -/
def Issue.missingPickList (e : String × Location) : Issue :=
  ((info "missing_pick_list" s!"Pick list `{e.1}` is referenced but not declared").located
    e.2).about "name" e.1

/-- Reports the references to names that are not declared. -/
def reportUndeclared (found : List (String × Location)) (declared : List String)
    (issueOf : String × Location → Issue) : Surveying Unit :=
  found.forM fun e => do
    unless declared.contains e.1 do
      Surveying.report (issueOf e)

/-- Reports the references of a document to what its outline does not show. -/
def Tree.crossReference (document : Tree) (root : Outline) : Surveying Unit := do
  let found := document.fold References.note {}
  reportUndeclared found.objects (root.namesOf .objectDefinition) Issue.missingObject
  reportUndeclared found.pickLists (root.namesOf .pickList) Issue.missingPickList

/-! ## The whole document -/

namespace Outline

/-- The outline of a source that holds no document. -/
def empty (filename : String) : Outline :=
  let root : Outline := { kind := .connector, name := noConnector }
  (root.withText "filename" filename).withTexts "root_keys" []

/-- The passes over a document. -/
def surveyDocument (filename : String) (document : Tree) : Surveying Outline := do
  document.unknownKeyIssues.forM Surveying.report
  let root : Outline :=
    { kind := .connector
      name := ((document.get? "title").bind Tree.stringValue?).getD untitled
      loc := document.span.location }
  let root := (root.withText "filename" filename).withTexts "root_keys" document.sortedKeys
  let children ← outlinedSections.filterMapM fun s =>
    (s.value? document).elim (pure none) s.survey?
  let root := { root with children }
  document.crossReference root
  return root

/-- The passes over a source and the document found in it. -/
def survey (filename : String) (program : Tree) (document? : Option Tree) : Surveying Outline := do
  program.flagCommands
  match document? with
  | some document => surveyDocument filename document
  | none =>
    Surveying.report (.warning "no_connector_hash"
      "No hash with at least two known connector sections was found")
    return empty filename

end Outline

end ConnectorAudit
