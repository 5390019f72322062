/-!
# Sections

The known sections at the top level of a connector document, and the keys that
name them.
-/

namespace ConnectorAudit

/-- A known section of a document. -/
inductive Section where
  | title
  | connection
  | test
  | actions
  | triggers
  | objectDefinitions
  | pickLists
  | methods
  | secureTunnel
  | webhookKeys
  | streams
  | customAction
  | customActionHelp
  deriving DecidableEq, Repr

namespace Section

def all : List Section :=
  [title, connection, test, actions, triggers, objectDefinitions, pickLists, methods,
    secureTunnel, webhookKeys, streams, customAction, customActionHelp]

def key : Section → String
  | title => "title"
  | connection => "connection"
  | test => "test"
  | actions => "actions"
  | triggers => "triggers"
  | objectDefinitions => "object_definitions"
  | pickLists => "pick_lists"
  | methods => "methods"
  | secureTunnel => "secure_tunnel"
  | webhookKeys => "webhook_keys"
  | streams => "streams"
  | customAction => "custom_action"
  | customActionHelp => "custom_action_help"

/-- A second key for pick lists. -/
def pickListsAlias : String := "picklists"

/-- The section that a key names. -/
def ofKey? (key : String) : Option Section :=
  if key = pickListsAlias then some pickLists else all.find? (·.key == key)

/-- Keys that a document may have beside its sections. -/
def extraKeys : List String := ["description"]

/-- Every section is named by its key. -/
@[simp]
theorem ofKey?_key (s : Section) : ofKey? s.key = some s := by
  cases s <;> decide

end Section

end ConnectorAudit
