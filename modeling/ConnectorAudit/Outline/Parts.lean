import ConnectorAudit.Outline
import ConnectorAudit.Outline.Entries
import ConnectorAudit.Section

/-!
# The parts of a document

For every kind of section, the pass over it: it adds what it finds to the survey,
in the order of the source, and gives the part of the outline.
-/

namespace ConnectorAudit

namespace Tree

def params (t : Tree) : List String :=
  match t.kind with
  | .callable params => params
  | _ => []

/-- The fixed keys of a hash, in order, each once. -/
def sortedKeys (t : Tree) : List String := sortedDistinct t.keys

/-- The value under a key, if it is a callable. -/
def callable? (t : Tree) (key : String) : Option Tree := (t.get? key).filter isCallable

end Tree

/-! ## The connection and its test -/

namespace Connection

/-- The callables that an authorization may have. -/
def authorizationKeys : List String :=
  ["acquire", "apply", "refresh", "refresh_on", "detect_on", "identity"]

def authorization? (value : Tree) : Option Tree := (value.get? "authorization").filter Tree.isHash

/-- The callables of the connection, each with its name. -/
def callables (value : Tree) : List (String × Tree) :=
  ((value.callable? "base_uri").map fun body => ("base_uri", body)).toList ++
    (authorization? value).elim [] fun authorization =>
      authorizationKeys.filterMap fun key =>
        (authorization.callable? key).map fun body => ("authorization." ++ key, body)

/-- What is known about a connection that is a hash. -/
def describe (value : Tree) (node : Outline) : Outline :=
  let node := ((value.get? "base_uri").bind Tree.stringValue?).elim node
    (node.withText "base_uri_literal")
  let type := (authorization? value).bind fun a => (a.get? "type").bind Tree.stringValue?
  let node := type.elim node (node.withText "authorization_type_literal")
  (node.withTexts "keys" value.sortedKeys).withTexts "callables" ((callables value).map Prod.fst)

def survey (value : Tree) : Surveying Outline := do
  let node : Outline :=
    { kind := .connection, name := "connection", loc := value.span.location }
  if value.isHash then
    (callables value).forM fun c => Surveying.enter ("connection#" ++ c.1) .lambda c.2
    return describe value node
  else
    Surveying.report (notHashIssue "connection" "`connection`" value)
    return node

end Connection

namespace ConnectionTest

def notLambdaIssue (value : Tree) : Issue :=
  (Issue.warning "test_not_lambda" "`test` is present but is not a lambda").located
    value.span.location

def survey (value : Tree) : Surveying Outline := do
  let node : Outline := { kind := .test, name := "test", loc := value.span.location }
  if value.isCallable then
    Surveying.enter "connector#test" .lambda value
    return node.withTexts "args" value.params
  else
    Surveying.report (notLambdaIssue value)
    return node

end ConnectionTest

/-- The pass over a section of entries: its key is `plural`, and each entry is a `singular`. -/
def surveyEntries (kind : Outline.Kind) (plural singular : String)
    (surveyEntry : SectionEntry → Surveying Outline) (value : Tree) : Surveying Outline := do
  let group : Outline := { kind, name := plural, loc := value.span.location }
  if value.isHash then
    let entries ← value.readEntries singular
    let children ← entries.mapM surveyEntry
    Surveying.tally plural children.length
    return { group with children }
  else
    Surveying.report (notHashIssue plural s!"`{plural}`" value)
    return group

/-! ## Methods -/

namespace Methods

def notLambdaIssue (e : SectionEntry) : Issue :=
  ((Issue.warning "method_not_lambda" s!"Method `{e.name}` is not a lambda").located
    e.body.span.location).about "name" e.name

def surveyMethod (e : SectionEntry) : Surveying Outline := do
  Surveying.declare e.name
  let node : Outline := { kind := .method, name := e.name, loc := e.body.span.location }
  if e.body.isCallable then
    Surveying.register (methodId e.name) .method e.body
    return node.withTexts "args" e.body.params
  else
    Surveying.report (notLambdaIssue e)
    return node

def survey : Tree → Surveying Outline := surveyEntries .methods "methods" "method" surveyMethod

end Methods

/-! ## Actions and triggers -/

/-- What actions, or triggers, must and may have. -/
structure OperationRules where
  /-- The key of the section. -/
  plural : String
  singular : String
  title : String
  group : Outline.Kind
  kind : Outline.Kind
  node : Graph.Kind
  /-- Keys that must be there. -/
  required : List String
  /-- Keys whose values must be callables. -/
  callables : List String

namespace OperationRules

def actions : OperationRules where
  plural := "actions"
  singular := "action"
  title := "Action"
  group := .actions
  kind := .action
  node := .action
  required := ["input_fields", "execute", "output_fields"]
  callables := ["input_fields", "execute", "output_fields", "sample_output"]

def triggers : OperationRules where
  plural := "triggers"
  singular := "trigger"
  title := "Trigger"
  group := .triggers
  kind := .trigger
  node := .trigger
  required := ["input_fields", "output_fields", "dedup"]
  callables := ["poll", "webhook_subscribe", "webhook_unsubscribe", "webhook_notification",
    "input_fields", "output_fields", "sample_output", "dedup"]

/-- The issue of an operation that lacks required keys. -/
def missingKeysIssue (rules : OperationRules) (e : SectionEntry) (missing : List String) : Issue :=
  let names := ", ".intercalate missing
  ((Issue.warning (rules.singular ++ "_missing_required_keys")
    s!"{rules.title} `{e.name}` is missing keys: {names}").located e.body.span.location
      |>.about "name" e.name).aboutAll "missing" missing

/-- The issue of something in an operation that should be a callable. -/
def notLambdaIssue (rules : OperationRules) (e : SectionEntry) (key owner : String) (value : Tree) :
    Issue :=
  ((Issue.warning "not_lambda" s!"{rules.title}.{key} of `{e.name}` is not a lambda").located
    value.span.location).about "owner" owner

/-- The required keys that an operation lacks. -/
def missingKeys (rules : OperationRules) (e : SectionEntry) : List String :=
  rules.required.filter fun key => !e.body.keys.contains key

/-- Reports the required keys that an operation lacks. -/
def surveyRequired (rules : OperationRules) (e : SectionEntry) : Surveying Unit := do
  unless (rules.missingKeys e).isEmpty do
    Surveying.report (rules.missingKeysIssue e (rules.missingKeys e))

/-- Looks at what an operation has under a key that is for a callable; gives the key if that is
one. -/
def surveyCallable (rules : OperationRules) (e : SectionEntry) (key : String) :
    Surveying (Option String) := do
  match e.body.get? key with
  | none => return none
  | some value =>
    let owner := s!"{rules.singular}:{e.name}#{key}"
    if value.isCallable then
      Surveying.enter owner rules.node value
      return some key
    else
      Surveying.report (rules.notLambdaIssue e key owner value)
      return none

def surveyOperation (rules : OperationRules) (e : SectionEntry) : Surveying Outline := do
  let node : Outline := { kind := rules.kind, name := e.name, loc := e.body.span.location }
  if e.body.isHash then
    rules.surveyRequired e
    let callables ← rules.callables.filterMapM (rules.surveyCallable e)
    return (node.withTexts "keys" e.body.sortedKeys).withTexts "callables" callables
  else
    Surveying.report (notHashIssue rules.singular s!"{rules.title} `{e.name}`" e.body)
    return node

def survey (rules : OperationRules) : Tree → Surveying Outline :=
  surveyEntries rules.group rules.plural rules.singular rules.surveyOperation

end OperationRules

/-! ## Object definitions and pick lists -/

/-- How named declarations go. -/
structure DeclarationRules where
  /-- The key of the section. -/
  plural : String
  singular : String
  group : Outline.Kind
  kind : Outline.Kind

namespace DeclarationRules

def objectDefinitions : DeclarationRules :=
  ⟨"object_definitions", "object_definition", .objectDefinitions, .objectDefinition⟩

def pickLists : DeclarationRules := ⟨"pick_lists", "pick_list", .pickLists, .pickList⟩

/-- The callables of a declaration, each with its owner: the declaration itself, or those under its
fixed keys. -/
def callables (rules : DeclarationRules) (e : SectionEntry) : List (String × Tree) :=
  let owner := s!"{rules.singular}:{e.name}"
  if e.body.isCallable then [(owner, e.body)]
  else
    e.body.pairs.filterMap fun (key, value) =>
      if value.isCallable then key.literalName?.map fun key => (s!"{owner}#{key}", value) else none

def surveyDeclaration (rules : DeclarationRules) (e : SectionEntry) : Surveying Outline := do
  (rules.callables e).forM fun c => Surveying.enter c.1 .lambda c.2
  return { kind := rules.kind, name := e.name, loc := e.body.span.location }

def survey (rules : DeclarationRules) : Tree → Surveying Outline :=
  surveyEntries rules.group rules.plural rules.singular rules.surveyDeclaration

end DeclarationRules

end ConnectorAudit
